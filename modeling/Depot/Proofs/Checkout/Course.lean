import Depot.Proofs.Checkout.Repetition

/-!
The whole course of a checkout that is alone: from the commit of its branch to its answer. If the
memo does not know the key, then the branch is fetched, and what the build of the path comes to is the
answer.
-/

namespace Depot

open Files Fingerprint

theorem Workspace.ensure_eq_self {site : Site} {seat : Seat} {w : World} (hw : w.IsSound site seat)
    {areas : List Area} (hareas : ∀ a ∈ areas, w.disk.root.IsDirAt (seat.area a)) {d' : Disk}
    (h : ensure w.disk (areas.map site.areaPath) = (d', .ok ())) : d' = w.disk := by
  induction areas with
  | nil =>
    cases h
    rfl
  | cons a areas ih =>
    rw [List.map_cons, ensure] at h
    cases hmake : w.disk.makeDirs (site.areaPath a) with
    | error e =>
      rw [hmake] at h
      cases (Prod.mk.inj h).2
    | ok d₁ =>
      rw [hmake] at h
      obtain ⟨base, hl, he⟩ := hw.seat.extends_area a
      obtain ⟨hlimit, hlen⟩ := Disk.short_of_makeDirs hw.tree hl he (hw.seat.isOpen a) hmake
      have hdir := hareas a List.mem_cons_self
      rw [← Seat.home_append_names] at hdir
      rw [hl.makeDirs_of_isDirAt he hlimit hlen hdir] at hmake
      obtain rfl := Except.ok.inj hmake
      exact ih (fun b hb => hareas b (List.mem_cons_of_mem _ hb)) h

/-! ### The number of scratch directories -/

theorem World.scratches_clone (w : World) (repo : Bytes) (branch : String) (dest : Bytes) :
    (w.clone repo branch dest).1.scratches = w.scratches := by
  have hcheckOut : ∀ (w : World) place source ref id,
      (w.checkOut place source ref id).1.scratches = w.scratches := by
    intro w place source ref id
    unfold World.checkOut
    dsimp only
    split <;> rfl
  unfold World.clone
  split
  · rfl
  · next source _ =>
    dsimp only
    split
    · rfl
    · split
      · rfl
      · next made _ =>
        generalize made.locate dest = found
        generalize World.branchOrTag? _ source branch = ref?
        rcases found with e | ⟨place, x⟩ <;> rcases ref? with e' | (- | ⟨ref, id⟩)
        all_goals first | rfl | dsimp only
        split_ifs
        · exact hcheckOut ..
        · rfl
        · rfl

theorem World.scratches_makeScratch {w w' : World} {parent : Bytes} {kind : String}
    {r : Except Errno Bytes} (h : w.makeScratch parent kind = (w', r)) :
    w'.scratches ≤ w.scratches + 1 := by
  unfold World.makeScratch at h
  dsimp only at h
  split at h <;> cases h <;> simp

namespace Phase

/-- The number of scratch directories that a checkout may still make. -/
def toOpen : Phase → Nat
  | start .. | prepare .. | resolve .. | lookUp .. | askLock .. | acquire _ | lookAgain _ | makeDirs _
  | openScratch _ => 2
  | clone .. | readHead .. | strip _ | locate _ | openWorkspace .. => 1
  | _ => 0

variable {site : Site} {me : Nat} {w w' : World} {b b' : Builder} {p p' : Phase}

theorem toOpen_step (hf : w.faults = []) (hp : ∀ branch path, p ≠ prepare branch path)
    (h : p.step site me w b = (w', b', p')) : w'.scratches + p'.toOpen ≤ w.scratches + p.toOpen := by
  cases p
  case prepare branch path => exact absurd rfl (hp branch path)
  case resolve branch path =>
    unfold step at h
    dsimp only at h
    have hsame : (History.tip site.repository branch w).1 = w := History.tip_fst hf
    cases htip : History.tip site.repository branch w with
    | mk w₁ r =>
    rw [htip] at hsame h
    obtain rfl : w₁ = w := hsame
    cases r <;> cases h <;> simp [toOpen]
  case openScratch job =>
    unfold step at h
    dsimp only at h
    cases hmake : w.makeScratch site.cloneArea "clone-" with
    | mk w₁ r =>
    have hcount := World.scratches_makeScratch hmake
    rw [hmake] at h
    cases r <;> cases h <;> simp only [toOpen] <;> omega
  case openWorkspace build source =>
    unfold step at h
    dsimp only at h
    cases hmake : w.makeScratch site.workArea "archive-" with
    | mk w₁ r =>
    have hcount := World.scratches_makeScratch hmake
    rw [hmake] at h
    cases r <;> cases h <;> simp only [toOpen] <;> omega
  case clone job scratch =>
    unfold step at h
    dsimp only at h
    cases hclone : History.clone site.repository job.branch (Build.checkout scratch) w with
    | mk w₁ r =>
    have hsame : w₁.scratches = w.scratches := by
      rcases History.of_clone hf hclone with ⟨rfl, -⟩ | ⟨finished, hrun, -⟩
      · rfl
      · rw [← World.scratches_clone w site.repository job.branch (Build.checkout scratch), hrun]
    rw [hclone] at h
    cases r <;> cases h <;> simp only [toOpen] <;> omega
  case readHead job scratch =>
    unfold step at h
    dsimp only at h
    have hsame : (History.head (Build.checkout scratch) w).1 = w := History.head_fst hf
    cases hhead : History.head (Build.checkout scratch) w with
    | mk w₁ r =>
    rw [hhead] at hsame h
    obtain rfl : w₁ = w := hsame
    cases r <;> cases h <;> simp [toOpen]
  case copy build route tasks =>
    cases tasks with
    | nil =>
      cases h
      simp [toOpen]
    | cons task rest =>
      unfold step at h
      dsimp only at h
      split at h <;> cases h <;> simp [toOpen]
  case discard job scratches result =>
    cases scratches <;> cases h <;> simp [toOpen, World.dropScratch]
  case remember job result =>
    cases result <;> cases h <;> simp [toOpen]
  all_goals
    unfold step at h
    try dsimp only at h
    repeat' split at h
    all_goals
      cases h
      simp [toOpen]

end Phase

/-- The commit is found, the memo does not know the key, and the directories of the cache root are
made. -/
theorem Phase.run_to_openScratch {site : Site} {me : Nat} {w : World} {b : Builder} {branch : String}
    {key : CheckoutKey} {d : Disk} (htip : History.tip site.repository branch w = (w, .ok key.commit))
    (hget : b.cache.get? key = none) (hfree : b.held.pairs = [])
    (hdirs : Workspace.ensure w.disk site.dirs = (d, .ok ())) :
    run site me 6 w b (resolve branch key.path) = ({ w with disk := d }, b.building me key,
      openScratch ⟨branch, key, (b.cache.lockFor key).1⟩) := by
  have hlookUp : (resolve branch key.path).step site me w b = (w, b, lookUp branch key) := by
    unfold step
    simp only [htip]
  have hmakeDirs : (makeDirs ⟨branch, key, (b.cache.lockFor key).1⟩).step site me w
      (b.building me key) = ({ w with disk := d }, b.building me key,
        openScratch ⟨branch, key, (b.cache.lockFor key).1⟩) := by
    unfold step
    simp only [hdirs]
  rw [run_succ hlookUp, run_add site me 4 1, run_to_makeDirs hget hfree, run_one]
  exact hmakeDirs

namespace Stage

variable {site : Site} {seat : Seat} {me : Nat} {base : Place} {s t u : Stage}

/-- A checkout makes two scratch directories at most. -/
theorem Goes.scratches (h : Goes site seat me s t) (hs : s.IsSound site seat) :
    t.world.scratches + t.phase.toOpen ≤ s.world.scratches + s.phase.toOpen := by
  induction h with
  | refl => exact Nat.le_refl _
  | @tail t u hgoes hnext ih =>
    refine Nat.le_trans ?_ ih
    have ht := (Goes.archives hgoes hs).1
    cases hnext with
    | @go w w' b b' p p' h hprepare =>
      by_cases hp : ∃ branch path, p = .prepare branch path
      · obtain ⟨branch, path, rfl⟩ := hp
        have hsame := (hprepare branch path rfl).scratches
        rcases prepare_cases h with ⟨f, -, -, -, rfl⟩ | ⟨rfl, -, -⟩ <;>
          simp [Phase.toOpen, hsame]
      · exact Phase.toOpen_step ht.world.undisturbed (fun branch path heq => hp ⟨branch, path, heq⟩) h
    | fail f h =>
      rcases Phase.failed?_cases h with ⟨rfl, -, -⟩ | ⟨job, -, rfl⟩ <;> simp [Phase.toOpen]
    | cease => simp [Phase.toOpen]
    | probe => simp [Phase.toOpen]

/-! ### The way of a checkout -/

theorem Leads.of_done (h : s.Leads site me t) (h' : s.Leads site me u)
    {result : Except Failure Outcome} (hu : u.phase = .done result) : t.Leads site me u := by
  obtain ⟨n, hn⟩ := h
  obtain ⟨m, hm⟩ := h'
  rcases Nat.le_total n m with hle | hle
  · obtain ⟨k, rfl⟩ := Nat.exists_eq_add_of_le hle
    rw [Phase.run_add, hn] at hm
    exact ⟨k, hm⟩
  · obtain ⟨k, rfl⟩ := Nat.exists_eq_add_of_le hle
    rw [Phase.run_add, hm, hu, Phase.run_done] at hn
    refine ⟨0, ?_⟩
    rw [Phase.run, ← hn, hu]

theorem result?_run {n : Nat} {w w' : World} {b b' : Builder} {p p' : Phase}
    {result : Except Failure Outcome} (hp : p.result? = some result)
    (h : Phase.run site me n w b p = (w', b', p')) : p'.result? = some result := by
  induction n generalizing w b p with
  | zero =>
    cases h
    exact hp
  | succ n ih =>
    obtain ⟨w₁, b₁, p₁, hstep⟩ : ∃ w₁ b₁ p₁, p.step site me w b = (w₁, b₁, p₁) := ⟨_, _, _, rfl⟩
    rw [Phase.run_succ hstep] at h
    exact ih (Phase.result?_step hp hstep) h

theorem Comes.unique {build : Build} {tree : Node} {r r' : Except Failure Outcome}
    (h : s.Comes site seat me build tree r) (h' : s.Comes site seat me build tree r') : r = r' := by
  obtain ⟨w, scratches, ⟨n, hn⟩, -⟩ := h
  obtain ⟨w', scratches', ⟨m, hm⟩, -⟩ := h'
  rcases Nat.le_total n m with hle | hle
  · obtain ⟨k, rfl⟩ := Nat.exists_eq_add_of_le hle
    rw [Phase.run_add, hn] at hm
    have hfirst : (Phase.discard build.job scratches r).result? = some r := rfl
    exact (Option.some.inj (result?_run hfirst hm)).symm
  · obtain ⟨k, rfl⟩ := Nat.exists_eq_add_of_le hle
    rw [Phase.run_add, hm] at hn
    have hfirst : (Phase.discard build.job scratches' r').result? = some r' := rfl
    exact Option.some.inj (result?_run hfirst hn)

section

variable {w w' w₁ w₂ : World} {b b₁ : Builder} {branch path normal : String} {key : CheckoutKey}
  {commit : CommitId} {scratch : Bytes} {r : Except Failure Outcome}

theorem leads_done {scratches : List Bytes} (hs : Rides site seat base
      ⟨w, b.building me key, .discard ⟨branch, key, (b.cache.lockFor key).1⟩ scratches r⟩) :
    ∃ w', Leads site me
        ⟨w, b.building me key, .discard ⟨branch, key, (b.cache.lockFor key).1⟩ scratches r⟩
        ⟨w', b.built key r, .done r⟩ ∧ w.SameArchives seat w' := by
  induction scratches generalizing w with
  | nil => exact ⟨w, ⟨4, Phase.run_cleared branch r⟩, fun _ => rfl⟩
  | cons scratch rest ih =>
    have hnext : Leads site me
        ⟨w, b.building me key, .discard ⟨branch, key, (b.cache.lockFor key).1⟩ (scratch :: rest) r⟩
        ⟨w.dropScratch scratch, b.building me key,
          .discard ⟨branch, key, (b.cache.lockFor key).1⟩ rest r⟩ := .of_step rfl
    obtain ⟨σ, hm⟩ := hs.sound.phase.made scratch List.mem_cons_self
    obtain ⟨ht, -⟩ := World.dropScratch_touches hs.sound.world hm
      (hs.sound.short scratch List.mem_cons_self)
    obtain ⟨w', hleads, hsame⟩ := ih (hs.leads hnext).1
    exact ⟨w', hnext.trans hleads, fun n =>
      (hsame n).trans (ht.disk.get?_archive hs.sound.world.tree n)⟩

/-- Where a checkout is when the clone of its branch has lost its repository. -/
def fetched (me : Nat) (b : Builder) (branch : String) (key : CheckoutKey) (scratch : Bytes)
    (w : World) : Stage :=
  ⟨w, b.building me key, .locate ⟨⟨branch, key, (b.cache.lockFor key).1⟩, scratch, key.commit⟩⟩

variable (me) in
/-- A key that is not known is built. -/
theorem run_to_fetched (hfetch : w₁.Fetches site branch commit scratch w₂)
    (hget : b.cache.get? ⟨commit, normal⟩ = none) (hfree : b.held.pairs = []) :
    Phase.run site me 10 w₁ b (.resolve branch normal) =
      (w₂, b.building me ⟨commit, normal⟩, (fetched me b branch ⟨commit, normal⟩ scratch w₂).phase) := by
  have hresolve : (Phase.resolve branch normal).step site me w₁ b =
      (w₁, b, .lookUp branch ⟨commit, normal⟩) := by
    unfold Phase.step
    simp only [hfetch.tip]
  rw [Phase.run_succ hresolve, Phase.run_add site me 4 5, Phase.run_to_makeDirs hget hfree,
    Phase.run_to_locate hfetch]
  rfl

variable (me) in
/-- From the path on it is not far to the copy or to the end. -/
theorem Rides.closing {build : Build} (hs : Rides site seat base ⟨w, b, .locate build⟩) :
    ∃ n ≤ 3, ∃ w' b' p, Phase.run site me n w b (.locate build) = (w', b', p) ∧ p.IsClosing w' := by
  have hended : ∀ {n k : Nat} {v : World} {p : Phase}, n ≤ 3 → p.left? = some k →
      k ≤ Builder.someSteps → Phase.run site me n w b (.locate build) = (v, b, p) →
        ∃ n ≤ 3, ∃ w' b' p, Phase.run site me n w b (.locate build) = (w', b', p) ∧
          p.IsClosing w' :=
    fun hn hp hk hrun => ⟨_, hn, _, _, _, hrun, .of_left? hp hk⟩
  rcases hfound : Workspace.subtree? w.disk (Build.checkout build.scratch) build.job.key.path with
    f | (- | source)
  · refine hended (n := 1) (k := 5) (v := w) (p := .discard build.job [build.scratch] (.error f))
      (by decide) rfl (by decide) ((Phase.run_one ..).trans ?_)
    unfold Phase.step
    simp only [hfound]
  · refine hended (n := 1) (k := 5) (v := w)
      (p := .discard build.job [build.scratch] (.ok ⟨build.commit, none⟩))
      (by decide) rfl (by decide) ((Phase.run_one ..).trans ?_)
    unfold Phase.step
    simp only [hfound]
  have hlocate : (Phase.locate build).step site me w b = (w, b, .openWorkspace build source) := by
    unfold Phase.step
    simp only [hfound]
  rcases hmake : w.makeScratch site.workArea "archive-" with ⟨w', e | workspace⟩
  · refine hended (n := 2) (k := 5) (v := w') (p := .discard build.job [build.scratch] (.error (.ofErrno
      ("creating workspace in " ++ Utf8.toStringLossy site.workArea) e))) (by decide) rfl (by decide) ?_
    rw [Phase.run_succ hlocate, Phase.run_one]
    unfold Phase.step
    simp only [hmake]
  have hopen : (Phase.openWorkspace build source).step site me w b =
      (w', b, .openSource build ⟨source, workspace⟩) := by
    unfold Phase.step
    simp only [hmake]
  have hopens : ∀ {p : Phase}, (Phase.openSource build ⟨source, workspace⟩).step site me w' b =
      (w', b, p) → Phase.run site me 3 w b (.locate build) = (w', b, p) := by
    intro p hstep
    rw [Phase.run_succ hlocate, Phase.run_succ hopen, Phase.run_one, hstep]
  rcases htasks : Archive.Copying.tasks w'.disk source with f | tasks
  · refine hended (n := 3) (k := 6) (v := w')
      (p := .discard build.job [workspace, build.scratch] (.error f)) (by decide) rfl (by decide) (hopens ?_)
    unfold Phase.step
    simp only [htasks]
  have hrun : Phase.run site me 3 w b (.locate build) =
      (w', b, .copy build ⟨source, workspace⟩ tasks) := by
    refine hopens ?_
    unfold Phase.step
    simp only [htasks]
  obtain ⟨σ, -, hu⟩ := (hs.leads (t := ⟨w', b, _⟩) ⟨3, hrun⟩).1.sound.phase.ready
  refine ⟨3, Nat.le_refl 3, _, _, _, hrun, seat.scratch σ, hu, fun t ht => ?_⟩
  rcases Archive.Copying.of_tasks_ok htasks with rfl | ⟨here, mode, es, -, rfl⟩
  · cases ht
  · obtain ⟨e, -, rfl⟩ := List.mem_map.mp ht
    exact Nat.le_of_ble_eq_true rfl

end

end Stage

theorem World.path_of_makeScratch {site : Site} {w w' : World} (purpose : Purpose) {path : Bytes}
    (h : w.makeScratch (site.areaPath purpose.area) purpose.word = (w', .ok path)) :
    path = (⟨purpose, w.scratches + 1⟩ : Scratch).path site w.disk.cwd := by
  unfold World.makeScratch at h
  dsimp only at h
  split at h
  · exact (Except.ok.inj (Prod.mk.inj h).2).symm
  · cases (Prod.mk.inj h).2

/-- The failure of the command that was to clone a branch into a scratch directory. -/
def Build.refusal (site : Site) (branch : String) (scratch : Bytes) (finished : Finished) : Failure :=
  .commandFailed (GitRun.clone site.repository branch (checkout scratch)).command.text
    (finished.code.map Int.ofNat)
    (String.ofList (outputTail (Utf8.lossy finished.out) (Utf8.lossy finished.err)))

/-- The branch is at a commit, but it cannot be cloned: the command that is to clone it into a new
scratch directory fails. -/
structure World.Refuses (site : Site) (branch : String) (w : World) (commit : CommitId)
    (scratch : Bytes) (finished : Finished) : Prop where
  tip : History.tip site.repository branch w = (w, .ok commit)
  failed : finished.code ≠ some 0
  clone : ∃ d w₁ w₂, Workspace.ensure w.disk site.dirs = (d, .ok ()) ∧
    { w with disk := d }.makeScratch site.cloneArea "clone-" = (w₁, .ok scratch) ∧
    w₁.runGit (.clone site.repository branch (Build.checkout scratch)) = (w₂, finished)

namespace Builder

open Stage

variable {site : Site} {seat : Seat} {base : Place} {w w' w₁ w₂ : World} {b b' b₁ b₂ : Builder}
  {branch path normal : String} {commit : CommitId} {scratch : Bytes} {tree : Entries}
  {r : Except Failure Outcome}

/-- A checkout that nothing disturbs comes to its answer. -/
structure Completes (site : Site) (seat : Seat) (w : World) (b : Builder) (branch path : String)
    (w' : World) (b' : Builder) (r : Except Failure Outcome) : Prop where
  answer : checkout site branch path w b = (w', b', r)
  goes : Goes site seat 0 ⟨w, b, .start branch path⟩ ⟨w', b', .done r⟩

theorem Completes.scratches (h : Completes site seat w b branch path w' b' r)
    (hs : (⟨w, b, .start branch path⟩ : Stage).IsSound site seat) : w'.scratches ≤ w.scratches + 2 :=
  h.goes.scratches hs

/-- A checkout that has made sure of the repository. -/
structure Prepared (site : Site) (seat : Seat) (w : World) (b : Builder) (branch path normal : String)
    (w₁ : World) (b₁ : Builder) : Prop where
  normal : Path.normalize path = .ok normal
  prepare : Builder.prepare site w b = (w₁, b₁, .ok ())
  same : w.SameCache site seat w₁
  sound : (⟨w, b, .start branch path⟩ : Stage).IsSound site seat

namespace Prepared

variable (h : Prepared site seat w b branch path normal w₁ b₁)
include h

theorem run (me : Nat) :
    Phase.run site me 2 w b (.start branch path) = (w₁, b₁, .resolve branch normal) := by
  have hstart : (Phase.start branch path).step site me w b = (w, b, .prepare branch normal) := by
    unfold Phase.step
    simp only [h.normal]
  rw [Phase.run_succ hstart, Phase.run_one]
  exact Phase.prepare_step h.prepare branch normal

theorem goes : Goes site seat 0 ⟨w, b, .start branch path⟩ ⟨w₁, b₁, .resolve branch normal⟩ := by
  have hstart : (Phase.start branch path).step site 0 w b = (w, b, .prepare branch normal) := by
    unfold Phase.step
    simp only [h.normal]
  refine .tail (.single (.go hstart nofun)) (.go (Phase.prepare_step h.prepare branch normal) ?_)
  exact fun _ _ _ => h.same

theorem isReady : b₁.isReady = true := by
  have hprepare := h.prepare
  rw [Builder.prepare] at hprepare
  split_ifs at hprepare with hready
  · cases hprepare
    exact hready
  · split at hprepare <;> cases hprepare
    rfl

theorem rides : Rides site seat w.disk.cwd ⟨w₁, b₁, .resolve branch normal⟩ :=
  ⟨(Goes.archives h.goes h.sound).1, h.isReady, h.same.cwd⟩

theorem completes {n : Nat} (hn : n ≤ 30) {p : Phase}
    (hrun : Phase.run site 0 n w₁ b₁ (.resolve branch normal) = (w₂, b₂, p)) (hp : p.IsClosing w₂)
    (hends : Leads site 0 ⟨w₁, b₁, .resolve branch normal⟩ ⟨w', b', .done r⟩) :
    Completes site seat w b branch path w' b' r := by
  have hclosing : Phase.run site 0 (2 + n) w b (.start branch path) = (w₂, b₂, p) := by
    rw [Phase.run_add, h.run]
    exact hrun
  obtain ⟨m, v, c, result, hall, hcheckout⟩ := checkout_ends (by rw [someSteps]; omega) hclosing hp
  have hstart : Leads site 0 ⟨w, b, .start branch path⟩ ⟨w₁, b₁, .resolve branch normal⟩ := ⟨2, h.run 0⟩
  obtain ⟨k, hk⟩ := Leads.of_done (t := ⟨v, c, .done result⟩) ⟨m, hall⟩ (hstart.trans hends) rfl
  rw [Phase.run_done] at hk
  cases hk
  obtain ⟨l, hl⟩ := hends
  exact ⟨hcheckout, h.goes.trans (Goes.of_run h.rides.sound h.isReady hl)⟩

theorem completes_of_tip {f : Failure}
    (htip : History.tip site.repository branch w₁ = (w₁, .error f)) :
    Completes site seat w b branch path w₁ b₁ (.error f) := by
  have hrun : Phase.run site 0 1 w₁ b₁ (.resolve branch normal) = (w₁, b₁, .done (.error f)) := by
    rw [Phase.run_one]
    unfold Phase.step
    simp only [htip]
  exact h.completes (by decide) hrun (.of_left? (k := 0) rfl (by decide)) ⟨1, hrun⟩

theorem completes_of_known (htip : History.tip site.repository branch w₁ = (w₁, .ok commit))
    {archive : Option ArchiveHash} (hget : b₁.cache.get? ⟨commit, normal⟩ = some archive) :
    Completes site seat w b branch path w₁ b₁ (.ok ⟨commit, archive⟩) := by
  have hresolve : (Phase.resolve branch normal).step site 0 w₁ b₁ =
      (w₁, b₁, .lookUp branch ⟨commit, normal⟩) := by
    unfold Phase.step
    simp only [htip]
  have hrun : Phase.run site 0 2 w₁ b₁ (.resolve branch normal) =
      (w₁, b₁, .done (.ok ⟨commit, archive⟩)) := by
    rw [Phase.run_succ hresolve, Phase.run_one]
    unfold Phase.step
    simp only [hget]
  exact h.completes (by decide) hrun (.of_left? (k := 0) rfl (by decide)) ⟨2, hrun⟩

end Prepared

theorem completes_of_refused {f : Failure} (hpath : Path.normalize path = .error f) :
    Completes site seat w b branch path w b (.error f) := by
  have hstep : (Phase.start branch path).step site 0 w b = (w, b, .done (.error f)) := by
    unfold Phase.step
    simp only [hpath]
  exact ⟨checkout_of_run (n := 1) (by decide) ((Phase.run_one ..).trans hstep),
    .single (.go hstep (by rintro _ _ ⟨⟩))⟩

variable (seat branch) in
theorem completes_of_unprepared {f : Failure} (hpath : Path.normalize path = .ok normal)
    (hprepare : prepare site w b = (w₁, b₁, .error f)) (hsame : w.SameCache site seat w₁) :
    Completes site seat w b branch path w₁ b (.error f) := by
  have hstart : (Phase.start branch path).step site 0 w b = (w, b, .prepare branch normal) := by
    unfold Phase.step
    simp only [hpath]
  have hstep : (Phase.prepare branch normal).step site 0 w b = (w₁, b, .done (.error f)) := by
    rw [prepare] at hprepare
    unfold Phase.step
    split_ifs at hprepare ⊢ with hready
    · cases hprepare
    · cases hrun : History.prepare site.repository w with
      | mk w₂ r =>
      rw [hrun] at hprepare
      cases r <;> cases hprepare
      rfl
  refine ⟨checkout_of_run (n := 2) (by decide) ?_,
    .tail (.single (.go hstart (by rintro _ _ ⟨⟩))) (.go hstep ?_)⟩
  · rw [Phase.run_succ hstart, Phase.run_one]
    exact hstep
  · exact fun _ _ _ => hsame

/-- When the repository and the directories of the cache root are made, only what is in them changes. -/
theorem stays_of_goes {p : Phase} {s : Stage} {me : Nat} (hs : (⟨w, b, p⟩ : Stage).IsSound site seat)
    (hareas : ∀ a, w.disk.root.IsDirAt (seat.area a)) (hset : b.Settles site seat w w)
    (ht : Stage.Trace site seat w b w ⟨w, b, p⟩) (h : Goes site seat me ⟨w, b, p⟩ s) :
    w.Stays seat s.world := by
  cases Goes.trace hset hs h ht with
  | early => exact .refl hs.world.tree
  | reading => exact .refl hs.world.tree
  | @late _ _ _ k d' _ _ _ hdirs hstays =>
    rw [Site.dirs_eq, ← List.map_take] at hdirs
    rwa [Workspace.ensure_eq_self hs.world (fun a _ => hareas a) hdirs] at hstays

theorem Completes.stays (h : Completes site seat w b branch path w' b' r)
    (hs : (⟨w, b, .start branch path⟩ : Stage).IsSound site seat)
    (hareas : ∀ a, w.disk.root.IsDirAt (seat.area a)) (hset : b.Settles site seat w w) :
    w.Stays seat w' := stays_of_goes hs hareas hset (.early (.inl rfl) rfl) h.goes

theorem stays_of_leads {d : Disk} {job : Job} {me : Nat}
    (hs : Rides site seat base ⟨{ w with disk := d }, b, .openScratch job⟩)
    (h : Leads site me ⟨{ w with disk := d }, b, .openScratch job⟩ ⟨w', b', .done r⟩) :
    { w with disk := d }.Stays seat w' := by
  obtain ⟨n, hn⟩ := h
  have hready : b.isReady = true := hs.ready
  have hset : b.Settles site seat { w with disk := d } { w with disk := d } :=
    ⟨fun _ => rfl, by simp [hready], by simp [hready], hs.sound.world, rfl, rfl, fun _ => rfl⟩
  exact stays_of_goes hs.sound (fun a => hs.sound.phase.ready a) hset
    (.of_stays rfl rfl hready (.refl hs.sound.world.tree)) (Goes.of_run hs.sound hready hn)

theorem Prepared.ends {key : CheckoutKey} (h : Prepared site seat w b branch path key.path w₁ b₁)
    (hfree : b₁.held.pairs = []) (hget : b₁.cache.get? key = none)
    (htip : History.tip site.repository branch w₁ = (w₁, .ok key.commit)) {d : Disk}
    (hdirs : Workspace.ensure w₁.disk site.dirs = (d, .ok ())) {n : Nat} (hn : n ≤ 30) {p : Phase}
    (hrun : Phase.run site 0 n w₁ b₁ (.resolve branch key.path) = (w', b', p)) (hp : p.IsClosing w')
    {scratches : List Bytes} (hleads : Leads site 0 ⟨w₁, b₁, .resolve branch key.path⟩
      ⟨w₂, b₁.building 0 key, .discard ⟨branch, key, (b₁.cache.lockFor key).1⟩ scratches r⟩) :
    ∃ w', Completes site seat w b branch path w' (b₁.built key r) r ∧ w₂.SameArchives seat w' ∧
      { w₁ with disk := d }.Stays seat w' := by
  have hs := h.rides
  obtain ⟨v, hdone, hsame⟩ := leads_done (hs.leads hleads).1
  have hend := hleads.trans hdone
  refine ⟨v, h.completes hn hrun hp hend, hsame, ?_⟩
  have hmid : Leads site 0 ⟨w₁, b₁, .resolve branch key.path⟩ ⟨{ w₁ with disk := d },
      b₁.building 0 key, .openScratch ⟨branch, key, (b₁.cache.lockFor key).1⟩⟩ :=
    ⟨6, Phase.run_to_openScratch htip hget hfree hdirs⟩
  exact stays_of_leads (hs.leads hmid).1 (hmid.of_done hend rfl)

theorem Prepared.built {key : CheckoutKey} (h : Prepared site seat w b branch path key.path w₁ b₁)
    (hfree : b₁.held.pairs = []) (hget : b₁.cache.get? key = none)
    (hfetch : w₁.Fetches site branch key.commit scratch w₂)
    (hcomes : (fetched 0 b₁ branch key scratch w₂).Comes site seat 0
      ⟨⟨branch, key, (b₁.cache.lockFor key).1⟩, scratch, key.commit⟩ (World.checkedOut tree) r) :
    ∃ w', Completes site seat w b branch path w' (b₁.built key r) r ∧
      Leaves seat (World.checkedOut tree) key w₁ w' r ∧
      ∃ d, Workspace.ensure w₁.disk site.dirs = (d, .ok ()) ∧ { w₁ with disk := d }.Stays seat w' := by
  have hrun := run_to_fetched 0 hfetch hget hfree
  have hfetched : Leads site 0 ⟨w₁, b₁, .resolve branch key.path⟩
      (fetched 0 b₁ branch key scratch w₂) := ⟨10, hrun⟩
  obtain ⟨hs, hsame⟩ := h.rides.leads hfetched
  obtain ⟨v, scratches, hleads, hleaves⟩ := hcomes
  obtain ⟨n, hn, w₃, b₃, p, hclosing, hp⟩ := Rides.closing 0 hs
  obtain ⟨d, -, -, -, hdirs, -⟩ := hfetch.clone
  have hall : Phase.run site 0 (10 + n) w₁ b₁ (.resolve branch key.path) = (w₃, b₃, p) := by
    rw [Phase.run_add, hrun]
    exact hclosing
  obtain ⟨w', hc, hcleared, hstays⟩ :=
    h.ends hfree hget hfetch.tip hdirs (by omega) hall hp (hfetched.trans hleads)
  exact ⟨w', hc, (hleaves.after (hsame (by simp [fetched, Phase.result?]))).before hcleared, d, hdirs,
    hstays⟩

theorem Prepared.refused {key : CheckoutKey} {finished : Finished}
    (h : Prepared site seat w b branch path key.path w₁ b₁) (hfree : b₁.held.pairs = [])
    (hget : b₁.cache.get? key = none) (hrefuses : w₁.Refuses site branch key.commit scratch finished) :
    ∃ w', Completes site seat w b branch path w'
        (b₁.built key (.error (Build.refusal site branch scratch finished)))
        (.error (Build.refusal site branch scratch finished)) ∧ w₁.SameArchives seat w' ∧
      ∃ d, Workspace.ensure w₁.disk site.dirs = (d, .ok ()) ∧ { w₁ with disk := d }.Stays seat w' := by
  obtain ⟨htip, hfailed, d, v, w₂, hdirs, hmake, hclone⟩ := hrefuses
  have hcloned : History.clone site.repository branch (Build.checkout scratch) v =
      (w₂, .error (Build.refusal site branch scratch finished)) := by
    rw [History.clone, History.validate_of_tip htip, World.git, hclone]
    simp only [Finished.output, if_neg hfailed]
    rfl
  have hopen : (Phase.openScratch ⟨branch, key, (b₁.cache.lockFor key).1⟩).step site 0
      { w₁ with disk := d } (b₁.building 0 key) = (v, b₁.building 0 key,
        .clone ⟨branch, key, (b₁.cache.lockFor key).1⟩ scratch) := by
    unfold Phase.step
    simp only [hmake]
  have hrefused : (Phase.clone ⟨branch, key, (b₁.cache.lockFor key).1⟩ scratch).step site 0 v
      (b₁.building 0 key) = (w₂, b₁.building 0 key, .discard ⟨branch, key, (b₁.cache.lockFor key).1⟩
        [scratch] (.error (Build.refusal site branch scratch finished))) := by
    unfold Phase.step
    simp only [hcloned]
  have hrun : Phase.run site 0 8 w₁ b₁ (.resolve branch key.path) = (w₂, b₁.building 0 key,
      .discard ⟨branch, key, (b₁.cache.lockFor key).1⟩ [scratch]
        (.error (Build.refusal site branch scratch finished))) := by
    rw [Phase.run_add site 0 6 2, Phase.run_to_openScratch htip hget hfree hdirs,
      Phase.run_succ hopen, Phase.run_one]
    exact hrefused
  obtain ⟨w', hc, hcleared, hstays⟩ := h.ends hfree hget htip hdirs (by decide) hrun
    (.of_left? (k := 5) rfl (by decide)) ⟨8, hrun⟩
  have hsame := (h.rides.leads (t := ⟨w₂, b₁.building 0 key, _⟩) ⟨8, hrun⟩).2 (by simp [Phase.result?])
  exact ⟨w', hc, fun n => (hcleared n).trans (hsame n), d, hdirs, hstays⟩

theorem Prepared.cloned {key : CheckoutKey} (h : Prepared site seat w b branch path key.path w₁ b₁)
    (hroom : seat.HasRoom) (hfree : b₁.held.pairs = []) (hget : b₁.cache.get? key = none)
    (hfetch : w₁.Fetches site branch key.commit scratch w₂) (htree : w₁.Commits key.commit tree) :
    (fetched 0 b₁ branch key scratch w₂).Rides site seat w.disk.cwd ∧
      Cloned site seat w.disk.cwd w₂ ⟨⟨branch, key, (b₁.cache.lockFor key).1⟩, scratch, key.commit⟩
        tree ⟨.clone, w₁.scratches + 1⟩ ∧ w₂.scratches ≤ w₁.scratches + 1 := by
  have hs := h.rides
  have hrun := run_to_fetched 0 hfetch hget hfree
  have hleads : Leads site 0 ⟨w₁, b₁, .resolve branch key.path⟩
      (fetched 0 b₁ branch key scratch w₂) := ⟨10, hrun⟩
  have hcount := Goes.scratches (Goes.of_run hs.sound h.isReady hrun) hs.sound
  obtain ⟨-, -, hx, -⟩ := hfetch.holdsTree hs.sound.world hroom htree
  obtain ⟨d, v, -, -, hdirs, hmake, -⟩ := hfetch.clone
  have hpath := World.path_of_makeScratch .clone hmake
  rw [Site.dirs_eq] at hdirs
  have hcwd : d.cwd = w₁.disk.cwd := (World.ensure_keeps [] hs.sound.world hdirs).1.cwd
  refine ⟨(hs.leads hleads).1, ⟨?_, hx⟩, Nat.le_of_succ_le_succ hcount⟩
  rw [← h.same.cwd, ← hcwd]
  exact hpath

end Builder

end Depot
