import Depot.Proofs.Archive.Ending
import Depot.Proofs.Checkout.Absence
import Depot.Proofs.Checkout.Retry

/-!
A checkout that no other runs beside comes to its end, and to an answer: after a copy that takes as many
tasks as its tree gives, there are only a few steps left.
-/

namespace Depot

open Files

namespace Archive

/-- Two states of a copy that differ in what was counted, and the same result. -/
structure Taken.SameBut (t t' : Taken) : Prop where
  disk : t.1.disk = t'.1.disk
  result : t.2 = t'.2

namespace Copying

variable {c c' : Copying}

theorem sameBut_failed (h : c.disk = c'.disk) (f : Failure) : (c.failed f).SameBut (c'.failed f) :=
  ⟨h, rfl⟩

theorem sameBut_change (h : c.disk = c'.disk) (action : String) (path : Bytes) (r : Except Errno Disk)
    {next next' : Copying → Taken}
    (hnext : ∀ k k' : Copying, k.disk = k'.disk → (next k).SameBut (next' k')) :
    (c.change action path r next).SameBut (c'.change action path r next') := by
  cases r with
  | ok d => exact hnext _ _ rfl
  | error e => exact sameBut_failed h _

theorem sameBut_copyFile (h : c.disk = c'.disk) (source dest : Bytes) :
    (c.copyFile source dest).SameBut (c'.copyFile source dest) := by
  rw [copyFile, copyFile, h]
  exact sameBut_change h _ _ _ fun k k' hk => ⟨hk, rfl⟩

theorem lost_congr (h : c.disk = c'.disk) (path : Bytes) : c.lost path = c'.lost path := by
  funext e
  rw [lost, lost, h]

theorem sameBut_makeListed (h : c.disk = c'.disk) (dest : Bytes) (r : Except Errno Disk)
    (listed : Except Errno (List Task)) (failure : Errno → Failure) :
    (c.makeListed dest r listed failure).SameBut (c'.makeListed dest r listed failure) :=
  sameBut_change h _ _ _ fun _ _ hk => ⟨hk, rfl⟩

theorem sameBut_openVisit (h : c.disk = c'.disk) (route : Route) (here place : Place) :
    (c.openVisit route here place).SameBut (c'.openVisit route here place) := by
  simp only [openVisit, list, lost_congr h, h]
  exact sameBut_makeListed h _ _ _ _

theorem sameBut_enterVisit (h : c.disk = c'.disk) (route : Route) (v : Visit) (n : Name) :
    (c.enterVisit route v n).SameBut (c'.enterVisit route v n) := by
  simp only [enterVisit, listBelow, list, lost_congr h, h]
  exact sameBut_makeListed h _ _ _ _

theorem sameBut_takeLink (h : c.disk = c'.disk) (route : Route) (place : Place) :
    (c.takeLink route place).SameBut (c'.takeLink route place) := by
  simp only [takeLink, referent, h]
  split
  · exact sameBut_failed h _
  split_ifs
  · exact sameBut_change h _ _ _ fun k k' hk => ⟨hk, rfl⟩
  split
  · exact sameBut_failed h _
  split_ifs
  · exact sameBut_openVisit (by rfl) route _ place
  · exact sameBut_copyFile (by rfl) _ _

theorem sameBut_followLink (h : c.disk = c'.disk) (route : Route) (v : Visit) (n : Name) :
    (c.followLink route v n).SameBut (c'.followLink route v n) := by
  simp only [followLink, referent, lost, h]
  split
  · exact sameBut_failed h _
  split_ifs
  · exact sameBut_failed h _
  all_goals
    split
    · exact sameBut_failed h _
    · first
      | exact sameBut_enterVisit h route v n
      | exact sameBut_copyFile h _ _

/-- What was counted before does not matter to a task. -/
theorem sameBut_take (h : c.disk = c'.disk) (route : Route) (task : Task) :
    (c.take route task).SameBut (c'.take route task) := by
  cases task with
  | entry place kind =>
    cases kind with
    | directory =>
      simp only [take, list, h]
      exact sameBut_makeListed h _ _ _ _
    | file => exact sameBut_copyFile h _ _
    | link => exact sameBut_takeLink h route place
    | special => exact ⟨h, rfl⟩
  | inner v n kind =>
    cases kind with
    | directory => exact sameBut_enterVisit h route v n
    | link => exact sameBut_followLink h route v n
    | file => exact sameBut_copyFile h _ _
    | special => exact sameBut_copyFile h _ _

end Copying

end Archive

namespace Phase

open Archive

variable {site : Site} {me : Nat} {w : World} {b : Builder} {build : Build} {route : Route} {root : Place}

/-- Where a checkout is when tasks of its copy were taken, or one of them has failed. -/
def copied (build : Build) (route : Route) (rest : List Task) : Option Failure → Phase
  | none => copy build route rest
  | some f => discard build.job [route.dest, build.scratch] (.error f)

/-- The next task of a copy is taken, whatever was counted so far. -/
theorem copy_step (k : Copying) (task : Task) (rest : List Task) :
    (copy build route (task :: rest)).step site me { w with disk := k.disk } b =
      ({ w with disk := (k.take route task).1.disk }, b,
        match (k.take route task).2 with
        | .ok more => copy build route (more ++ rest)
        | .error f => discard build.job [route.dest, build.scratch] (.error f)) := by
  have hsame : (⟨k.disk, {}⟩ : Copying).disk = k.disk := rfl
  obtain ⟨hdisk, hresult⟩ := Copying.sameBut_take hsame route task
  rw [← hdisk, ← hresult]
  unfold step
  dsimp only
  cases Copying.take ⟨k.disk, {}⟩ route task with
  | mk c r => cases r <;> rfl

variable (site me w b build) in
/-- A copy takes the tasks that are given, and all that these give, one at a time. -/
theorem run_takeAll (levels : Nat) {tasks rest : List Task} {p : Copying.Progress}
    (hu : Underway root route.dest p.copying.disk (tasks ++ rest)) (hp : p.stop = none)
    (hlevels : ∀ t ∈ tasks, Disk.pathLimit < t.target.length + levels)
    (hlength : ∀ t ∈ tasks, t.target.length ≤ Disk.pathLimit) :
    ∃ n, (Copying.takeAll route levels tasks p).taken = p.taken + n ∧
      run site me n { w with disk := p.copying.disk } b (copy build route (tasks ++ rest)) =
        ({ w with disk := (Copying.takeAll route levels tasks p).copying.disk }, b,
          copied build route rest (Copying.takeAll route levels tasks p).stop) := by
  induction levels generalizing tasks rest p with
  | zero =>
    cases tasks with
    | nil => exact ⟨0, rfl, by rw [Copying.takeAll, hp]; rfl⟩
    | cons task tasks =>
      have hlt := hlevels task List.mem_cons_self
      have hle := hlength task List.mem_cons_self
      omega
  | succ levels ih =>
    rw [Copying.takeAll]
    induction tasks generalizing p with
    | nil => exact ⟨0, rfl, by rw [Copying.takeEach, hp]; rfl⟩
    | cons task tasks iht =>
      have hr := hu.ready task List.mem_cons_self
      have hstep : (copy build route (task :: (tasks ++ rest))).step site me
          { w with disk := p.copying.disk } b = _ := copy_step p.copying task (tasks ++ rest)
      rw [Copying.takeEach, hp]
      dsimp only
      cases htake : p.copying.take route task with
      | mk c r =>
      rw [htake] at hstep
      cases r with
      | error f => exact ⟨1, rfl, by rw [List.cons_append, run_one, hstep]; rfl⟩
      | ok more =>
        have hfirst : Copies route (p.copying.disk, task :: tasks ++ rest)
            (c.disk, more ++ (tasks ++ rest)) := .single (.take htake)
        have hmore := Copying.length_target_of_take hu.sound hu.leads hr htake
        have hu₁ := (hu.copies hfirst).1
        obtain ⟨n, hcount, hrun⟩ := ih (p := ⟨c, p.taken + 1, none⟩) hu₁ rfl (fun t ht => by
          have hlt := hlevels task List.mem_cons_self
          have hlen := (hmore t ht).1
          omega) (fun t ht => (hmore t ht).2)
        dsimp only at hcount hrun ⊢
        have hgoes : run site me (n + 1) { w with disk := p.copying.disk } b
            (copy build route (task :: tasks ++ rest)) = _ := (run_succ hstep).trans hrun
        -- What the task gives stops the copy, or is taken before the others.
        cases hbelow : (Copying.takeAll route levels more ⟨c, p.taken + 1, none⟩).stop with
        | some f =>
          have hkeep : Copying.takeEach route (Copying.takeAll route levels) tasks
              (Copying.takeAll route levels more ⟨c, p.taken + 1, none⟩) =
                Copying.takeAll route levels more ⟨c, p.taken + 1, none⟩ := by
            cases tasks <;> simp [Copying.takeEach, hbelow]
          rw [hkeep]
          refine ⟨n + 1, by omega, ?_⟩
          rw [hgoes, hbelow]
          rfl
        | none =>
          have hrest := (Copying.isChain_takeAll route levels _ _ hbelow).2 (tasks ++ rest)
          obtain ⟨m, hcount', hrun'⟩ := iht (hu₁.copies hrest).1 hbelow
            (fun t ht => hlevels t (List.mem_cons_of_mem _ ht))
            (fun t ht => hlength t (List.mem_cons_of_mem _ ht))
          refine ⟨(n + 1) + m, by omega, ?_⟩
          rw [run_add, hgoes, hbelow]
          exact hrun'

/-- The steps that are left after the copy; nothing is said of other steps. -/
def left? : Phase → Option Nat
  | hash .. => some 9
  | share .. => some 8
  | publish .. => some 7
  | discard _ scratches _ => some (scratches.length + 4)
  | remember .. => some 3
  | finish .. => some 2
  | release _ => some 1
  | done _ => some 0
  | _ => none

theorem eq_done_of_left? {p : Phase} (hp : p.left? = some 0) : ∃ result, p = done result := by
  cases p
  case done result => exact ⟨result, rfl⟩
  all_goals cases hp

theorem left?_step {w' : World} {b' : Builder} {p p' : Phase} {n : Nat} (hp : p.left? = some (n + 1))
    (h : p.step site me w b = (w', b', p')) : ∃ m ≤ n, p'.left? = some m := by
  cases p
  case hash build workspace =>
    cases hp
    unfold step at h
    dsimp only at h
    split at h <;> cases h
    · exact ⟨8, Nat.le_refl _, rfl⟩
    · exact ⟨6, by decide, rfl⟩
  case share build workspace hash =>
    cases hp
    unfold step at h
    dsimp only at h
    split at h <;> cases h
    · exact ⟨7, Nat.le_refl _, rfl⟩
    · exact ⟨6, by decide, rfl⟩
  case publish build workspace hash =>
    cases hp
    unfold step at h
    dsimp only at h
    split at h <;> cases h <;> exact ⟨6, Nat.le_refl _, rfl⟩
  case discard job scratches result =>
    have hlength : scratches.length + 4 = n + 1 := Option.some.inj hp
    cases scratches with
    | nil =>
      cases h
      exact ⟨3, by simpa using hlength.le, rfl⟩
    | cons scratch rest =>
      cases h
      exact ⟨rest.length + 4, by simpa using hlength.le, rfl⟩
  case remember job result =>
    cases hp
    cases result <;> cases h <;> exact ⟨2, Nat.le_refl _, rfl⟩
  case finish | release =>
    cases hp
    cases h
    exact ⟨_, Nat.le_refl _, rfl⟩
  all_goals cases hp

theorem run_of_left? {p : Phase} {n k : Nat} (hp : p.left? = some k) (hk : k ≤ n) :
    ∃ w' b' result, run site me n w b p = (w', b', done result) := by
  induction n generalizing w b p k with
  | zero =>
    obtain rfl := Nat.le_zero.mp hk
    obtain ⟨result, rfl⟩ := eq_done_of_left? hp
    exact ⟨w, b, result, rfl⟩
  | succ n ih =>
    cases k with
    | zero =>
      obtain ⟨result, rfl⟩ := eq_done_of_left? hp
      exact ⟨w, b, result, run_done ..⟩
    | succ k =>
      obtain ⟨w', b', p', hstep⟩ : ∃ w' b' p', p.step site me w b = (w', b', p') := ⟨_, _, _, rfl⟩
      obtain ⟨m, hm, hp'⟩ := left?_step hp hstep
      rw [run_succ hstep]
      exact ih hp' (by omega)

/-- The copy of a checkout is underway, or it is over and only few steps are left. -/
def IsClosing (w : World) : Phase → Prop
  | copy _ route tasks => ∃ root, Underway root route.dest w.disk tasks ∧
    ∀ t ∈ tasks, t.target.length ≤ Disk.pathLimit
  | p => ∃ k ≤ Builder.someSteps, p.left? = some k

theorem IsClosing.of_left? {p : Phase} {k : Nat} (hp : p.left? = some k)
    (hk : k ≤ Builder.someSteps) : p.IsClosing w := by
  cases p
  case copy => cases hp
  all_goals exact ⟨k, hk, hp⟩

theorem IsClosing.cases {p : Phase} (hp : p.IsClosing w) :
    (∃ build route tasks root, p = copy build route tasks ∧ Underway root route.dest w.disk tasks ∧
        ∀ t ∈ tasks, t.target.length ≤ Disk.pathLimit) ∨
      p.toCopy w = 0 ∧ ∃ k ≤ Builder.someSteps, p.left? = some k := by
  cases p
  case copy build route tasks =>
    obtain ⟨root, hu, hlength⟩ := hp
    exact .inl ⟨build, route, tasks, root, rfl, hu, hlength⟩
  all_goals exact .inr ⟨rfl, hp⟩

theorem IsClosing.step {w' : World} {b' : Builder} {p p' : Phase} (hp : p.IsClosing w)
    (h : p.step site me w b = (w', b', p')) : p'.IsClosing w' := by
  rcases hp.cases with ⟨build, route, tasks, root, rfl, hu, hlength⟩ | ⟨-, k, hk, hleft⟩
  · cases tasks with
    | nil =>
      cases h
      exact .of_left? (k := 9) rfl (by decide)
    | cons task rest =>
      have hstep : (copy build route (task :: rest)).step site me w b = _ :=
        copy_step ⟨w.disk, {}⟩ task rest
      rw [hstep] at h
      cases htake : Copying.take ⟨w.disk, {}⟩ route task with
      | mk c r =>
      rw [htake] at h
      have hr := hu.ready task List.mem_cons_self
      cases r with
      | error f =>
        cases h
        exact .of_left? (k := 6) rfl (by decide)
      | ok more =>
        cases h
        have heffect := Copying.effect_of_take (c := ⟨w.disk, {}⟩) hu.sound hu.leads hr htake
        have hmore := Copying.length_target_of_take (c := ⟨w.disk, {}⟩) hu.sound hu.leads hr htake
        refine ⟨root, (hu.step heffect).1, fun t ht => ?_⟩
        rcases List.mem_append.mp ht with ht | ht
        · exact (hmore t ht).2
        · exact hlength t (List.mem_cons_of_mem _ ht)
  · cases k with
    | zero =>
      obtain ⟨result, rfl⟩ := eq_done_of_left? hleft
      cases h
      exact .of_left? (k := 0) rfl (by decide)
    | succ k =>
      obtain ⟨m, hm, hp'⟩ := left?_step hleft h
      exact .of_left? hp' (by omega)

theorem IsClosing.run {w' : World} {b' : Builder} {p p' : Phase} {n : Nat} (hp : p.IsClosing w)
    (h : run site me n w b p = (w', b', p')) : p'.IsClosing w' := by
  induction n generalizing w b p with
  | zero =>
    cases h
    exact hp
  | succ n ih =>
    obtain ⟨w₁, b₁, p₁, hstep⟩ : ∃ w₁ b₁ p₁, p.step site me w b = (w₁, b₁, p₁) := ⟨_, _, _, rfl⟩
    rw [run_succ hstep] at h
    exact ih (hp.step hstep) h

variable (site me b build) in
/-- All tasks of a copy are taken, or those up to one that fails. -/
theorem run_finish {tasks : List Task} (hu : Underway root route.dest w.disk tasks)
    (hlength : ∀ t ∈ tasks, t.target.length ≤ Disk.pathLimit) :
    run site me (Copying.finish route tasks w.disk).taken w b (copy build route tasks) =
      ({ w with disk := (Copying.finish route tasks w.disk).copying.disk }, b,
        copied build route [] (Copying.finish route tasks w.disk).stop) := by
  have hlevels : ∀ t ∈ tasks, Disk.pathLimit < t.target.length + Disk.pathLimit := by
    intro t ht
    have hpos := List.length_pos_iff.mpr (hu.ready t ht).ne_nil
    omega
  obtain ⟨n, hcount, hrun⟩ := run_takeAll site me w b build (p := ⟨⟨w.disk, {}⟩, 0, none⟩)
    Disk.pathLimit (by rwa [List.append_nil]) rfl hlevels hlength
  rw [List.append_nil] at hrun
  rw [Nat.zero_add] at hcount
  rw [Copying.finish, hcount]
  exact hrun

variable (site me b) in
theorem IsClosing.ends {p : Phase} (hp : p.IsClosing w) :
    ∃ w' b' result, Phase.run site me (p.toCopy w + Builder.someSteps) w b p =
      (w', b', done result) := by
  rcases hp.cases with ⟨build, route, tasks, root, rfl, hu, hlength⟩ | ⟨hcount, k, hk, hleft⟩
  · rw [toCopy, run_add, run_finish _ _ _ _ hu hlength]
    generalize Copying.finish route tasks w.disk = p
    dsimp only
    cases p.stop with
    | none =>
      have hsteps : Builder.someSteps = 31 + 1 := rfl
      have hlast : (copy build route []).step site me { w with disk := p.copying.disk } b =
        ({ w with disk := p.copying.disk }, b, hash build route.dest) := rfl
      rw [hsteps, copied, run_succ hlast]
      exact run_of_left? (k := 9) rfl (by decide)
    | some f => exact run_of_left? (k := 6) rfl (by decide)
  · rw [hcount, Nat.zero_add]
    exact run_of_left? hleft hk

end Phase

namespace Builder

variable {site : Site} {w w₁ : World} {b b₁ : Builder} {branch path : String} {p : Phase} {n : Nat}

/-- A checkout that comes to its copy in time comes to an answer. -/
theorem checkout_ends (hn : n ≤ someSteps)
    (h : Phase.run site 0 n w b (.start branch path) = (w₁, b₁, p)) (hp : p.IsClosing w₁) :
    ∃ m w' b' result, Phase.run site 0 m w b (.start branch path) = (w', b', .done result) ∧
      checkout site branch path w b = (w', b', result) := by
  obtain ⟨k, hk⟩ := Nat.exists_eq_add_of_le hn
  obtain ⟨w₂, b₂, p₂, hrun⟩ : ∃ w₂ b₂ p₂, Phase.run site 0 k w₁ b₁ p = (w₂, b₂, p₂) := ⟨_, _, _, rfl⟩
  have hfirst : Phase.run site 0 someSteps w b (.start branch path) = (w₂, b₂, p₂) := by
    rw [hk, Phase.run_add, h]
    exact hrun
  obtain ⟨w', b', result, hlast⟩ := (hp.run hrun).ends site 0 b₂
  refine ⟨someSteps + (p₂.toCopy w₂ + someSteps), w', b', result, ?_, ?_⟩
  · rw [Phase.run_add, hfirst]
    exact hlast
  · unfold checkout
    simp only [hfirst, hlast]

end Builder

end Depot
