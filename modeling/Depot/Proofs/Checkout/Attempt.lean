import Depot.Proofs.Checkout.Footprint

/-!
Checkouts that do not overlap, each step of which may fail. One that fails publishes nothing and
leaves nothing in the directories of clones and of archives being built.
-/

namespace Depot

open Files Fingerprint

/-- All that has changed is within the directories of the cache root. -/
structure World.Stays (seat : Seat) (w w' : World) : Prop where
  sound : w'.disk.root.IsSound
  cwd : w'.disk.cwd = w.disk.cwd
  commits : w'.commits = w.commits
  around : seat.SameAround w.disk.root w'.disk.root

namespace World.Stays

variable {site : Site} {seat : Seat} {w w' : World}

theorem refl (h : w.disk.root.IsSound) : w.Stays seat w := ⟨h, rfl, rfl, fun _ _ => rfl⟩

theorem trans {w'' : World} (h : w.Stays seat w') (h' : w'.Stays seat w'') : w.Stays seat w'' :=
  ⟨h'.sound, h'.cwd.trans h.cwd, h'.commits.trans h.commits,
    fun other hother => (h.around other hother).trans (h'.around other hother)⟩

theorem of_touches {owned : List Bytes} (h : w.Touches site seat owned w') : w.Stays seat w' :=
  ⟨h.disk.sound, h.disk.cwd, h.commits, h.disk.sameAround⟩

theorem disk_eq (h : w.Stays seat w') (hs : w.disk.root.IsSound)
    (hentry : ∀ a n, w'.disk.root.get? (seat.entry a n) = w.disk.root.get? (seat.entry a n)) :
    w'.disk = w.disk := by
  have hroot : w'.disk.root = w.disk.root := by
    refine Node.eq_of_look_eq h.sound hs fun place => ?_
    by_cases hplace : ∃ a n, seat.entry a n <+: place
    · obtain ⟨a, n, rest, rfl⟩ := hplace
      rw [Node.look, Node.look, Node.get?_append, Node.get?_append, hentry]
    · exact (h.around place fun a n hp => hplace ⟨a, n, hp⟩).symm
  calc w'.disk = ⟨w'.disk.root, w'.disk.cwd⟩ := rfl
    _ = w.disk := by rw [hroot, h.cwd]

end World.Stays

namespace Phase

theorem failed?_cases {p p' : Phase} {f : Failure} (h : p.failed? f = some p') :
    p' = done (.error f) ∧ p.scratches = [] ∧ p.result? = none ∨
      ∃ job, p.job? = some job ∧ p' = discard job p.scratches (.error f) := by
  unfold failed? at h
  split at h
  case h_4 =>
    obtain ⟨job, hjob, rfl⟩ := Option.map_eq_some_iff.mp h
    exact .inr ⟨job, hjob, rfl⟩
  all_goals
    obtain rfl := Option.some.inj h
    exact .inl ⟨rfl, rfl, rfl⟩

theorem result?_of_job? {p : Phase} {job : Job} (h : p.job? = some job) : p.result? = none := by
  cases p <;> first | rfl | cases h

theorem result?_step {site : Site} {me : Nat} {w w' : World} {b b' : Builder} {p p' : Phase}
    {result : Except Failure Outcome} (hp : p.result? = some result)
    (h : p.step site me w b = (w', b', p')) : p'.result? = some result := by
  cases p
  case discard job scratches _ =>
    cases scratches <;> obtain ⟨-, -, rfl⟩ := Prod.mk.inj h <;> exact hp
  case remember job result =>
    cases result <;> obtain ⟨-, -, rfl⟩ := Prod.mk.inj h <;> exact hp
  case finish | release | done =>
    obtain ⟨-, -, rfl⟩ := Prod.mk.inj h
    exact hp
  all_goals cases hp

end Phase

/-- A checkout on its way, with no other at the same time. -/
structure Stage where
  world : World
  builder : Builder
  phase : Phase

namespace Stage

/-- What can come next. A step may fail and leave anything in the scratch directories of its
checkout; only some of the directories of the cache root may be made; and where there is a
repository, the attempt to make one may fail. -/
inductive Next (site : Site) (seat : Seat) (me : Nat) : Stage → Stage → Prop
  | go {w w' : World} {b b' : Builder} {p p' : Phase} (h : p.step site me w b = (w', b', p'))
    (hprepare : ∀ branch path, p = .prepare branch path → w.SameCache site seat w') :
    Next site seat me ⟨w, b, p⟩ ⟨w', b', p'⟩
  | fail {w : World} {b : Builder} {p p' : Phase} {d' : Disk} (f : Failure)
    (h : p.failed? f = some p') (hleft : w.disk.ChangedIn site seat p.scratches d') :
    Next site seat me ⟨w, b, p⟩ ⟨{ w with disk := d' }, b, p'⟩
  | cease {w : World} {b : Builder} {job : Job} {d' : Disk} (f : Failure) (k : Nat)
    (h : Workspace.ensure w.disk (site.dirs.take k) = (d', .ok ())) :
    Next site seat me ⟨w, b, .makeDirs job⟩ ⟨{ w with disk := d' }, b, .discard job [] (.error f)⟩
  | probe {w : World} {b : Builder} {branch path : String}
    (h : (Repository.find? w.disk site.repository).isSome = true) :
    Next site seat me ⟨w, b, .prepare branch path⟩
      ⟨w, { b with isReady := true }, .resolve branch path⟩

/-- What can come of any number of steps. -/
abbrev Goes (site : Site) (seat : Seat) (me : Nat) : Stage → Stage → Prop :=
  Relation.ReflTransGen (Next site seat me)

/-- What holds between steps. The directories of clones and of archives being built hold nothing
but what the checkout has. -/
structure IsSound (site : Site) (seat : Seat) (s : Stage) : Prop where
  world : s.world.IsSound site seat
  archives : ∀ n x, s.world.disk.root.get? (seat.archive n) = some x → IsArchive n x
  builder : s.builder.IsSound seat s.world
  phase : s.phase.IsSound site seat s.world
  short : ∀ path ∈ s.phase.scratches, path.length ≤ Disk.pathLimit
  holds : s.world.HoldsOnly site seat s.phase.scratches

variable {site : Site} {seat : Seat} {me : Nat} {w w' : World} {b b' : Builder} {p p' : Phase}

/-- What most steps do to the cache root. -/
structure Stirs (site : Site) (seat : Seat) (w w' : World) (p' : Phase) : Prop where
  stays : w.Stays seat w'
  short : ∀ path ∈ p'.scratches, path.length ≤ Disk.pathLimit
  holds : w'.HoldsOnly site seat p'.scratches
  archives : (∀ outcome, p'.result? ≠ some (.ok outcome)) →
    ∀ n, w'.disk.root.get? (seat.archive n) = w.disk.root.get? (seat.archive n)

/-- An archive is published out of its scratch directory, if at all. -/
theorem IsSound.publish_stirs {build : Build} {workspace : Bytes} {hash : ArchiveHash}
    (hs : IsSound site seat ⟨w, b, .publish build workspace hash⟩) (hw' : w'.IsSound site seat)
    (h : (Phase.publish build workspace hash).step site me w b = (w', b', p')) :
    Stirs site seat w w' p' := by
  have hw : w.IsSound site seat := hs.world
  have hholds : w.HoldsOnly site seat [workspace, build.scratch] := hs.holds
  obtain ⟨σ, x, hm, hget, hdir, hhash⟩ := hs.phase.ready
  have hname := hw.seat.names_scratch (hm.areas σ.purpose.area)
  have hname' := hw.seat.names_archive (hm.areas .archives) hhash.isName
  rw [← hm.path] at hname
  rw [← Site.archivePath_eq] at hname'
  obtain ⟨mode, es, rfl⟩ : ∃ mode es, x = .dir mode es := by
    cases x with
    | dir mode es => exact ⟨mode, es, rfl⟩
    | _ => cases hdir
  unfold Phase.step at h
  dsimp only at h
  rw [Workspace.publish] at h
  rcases hname.rename_cases hname' hget with ⟨e, hrename⟩ | ⟨-, -, hrename⟩
  · rw [hrename] at h
    by_cases hexists : w.disk.doesExist (site.archivePath hash) = true
    · simp only [if_pos hexists] at h
      obtain ⟨rfl, -, rfl⟩ := Prod.mk.inj h
      exact ⟨.refl hw.tree, hs.short, hholds, fun _ _ => rfl⟩
    · simp only [if_neg hexists] at h
      obtain ⟨rfl, -, rfl⟩ := Prod.mk.inj h
      exact ⟨.refl hw.tree, hs.short, hholds, fun _ _ => rfl⟩
  · rw [hrename] at h
    obtain ⟨rfl, -, rfl⟩ := Prod.mk.inj h
    have ht := hw.touches hm (List.forall_mem_nil _) (f := fun _ => none) (by simp)
    rw [List.append_nil] at ht
    have hw₁ := (World.Keeps.of_changedIn hw ht.disk).sound
    have hsub : ∀ path ∈ [workspace] ++ [workspace, build.scratch],
        path ∈ [workspace, build.scratch] := by simp
    have hholds₁ := (hholds.touches hw.tree ht).mono hsub
    have hne : seat.archive hash.name ≠ [] := by simp [Seat.archive, Seat.entry]
    have hlook := fun other (hother : ¬ seat.archive hash.name <+: other) f =>
      Disk.look_alter_outside hw₁.tree hne hother f
    refine ⟨⟨hw'.tree, rfl, rfl, fun other hother => ?_⟩, hs.short, ?_, fun hnone => ?_⟩
    · exact (ht.disk.sameAround other hother).trans (hlook other (hother _ _) _).symm
    · intro a n x ha hx
      refine hholds₁ a n x ha (Eq.trans ?_ hx)
      refine Node.get?_eq_of_look_eq hw₁.tree hw'.tree fun rest => ?_
      exact (hlook _ (fun hp => ha (Seat.eq_of_entry_append hp).1.symm) _).symm
    · exact absurd rfl (hnone _)

theorem looks (hw : w.faults = []) (hjob : p.job? = none)
    (hprepare : ∀ branch path, p ≠ .prepare branch path)
    (hdiscard : ∀ job scratches result, p ≠ .discard job scratches result)
    (h : p.step site me w b = (w', b', p')) : w' = w ∧ p.scratches = [] ∧ p'.scratches = [] := by
  cases p
  case prepare branch path => exact absurd rfl (hprepare branch path)
  case discard job scratches result => exact absurd rfl (hdiscard job scratches result)
  case resolve branch path =>
    unfold Phase.step at h
    dsimp only at h
    cases htip : History.tip site.repository branch w with
    | mk w₁ r =>
    obtain rfl : w₁ = w := by rw [← History.tip_fst hw, htip]
    rw [htip] at h
    cases r <;> obtain ⟨rfl, rfl, rfl⟩ := Prod.mk.inj h <;> exact ⟨rfl, rfl, rfl⟩
  case start | lookUp | acquire | lookAgain =>
    unfold Phase.step at h
    dsimp only at h
    split at h <;> obtain ⟨rfl, rfl, rfl⟩ := Prod.mk.inj h <;> exact ⟨rfl, rfl, rfl⟩
  case remember job result =>
    cases result <;> obtain ⟨rfl, rfl, rfl⟩ := Prod.mk.inj h <;> exact ⟨rfl, rfl, rfl⟩
  case askLock | finish | release | done =>
    obtain ⟨rfl, rfl, rfl⟩ := Prod.mk.inj h
    exact ⟨rfl, rfl, rfl⟩
  all_goals cases hjob

theorem IsSound.stirs (hs : IsSound site seat ⟨w, b, p⟩) (hw' : w'.IsSound site seat)
    (hprepare : ∀ branch path, p ≠ .prepare branch path) (hmake : ∀ job, p ≠ .makeDirs job)
    (h : p.step site me w b = (w', b', p')) : Stirs site seat w w' p' := by
  have hholds := hs.holds
  have hw := hs.world
  by_cases hdiscard : ∃ job scratches result, p = .discard job scratches result
  · obtain ⟨job, scratches, result, rfl⟩ := hdiscard
    cases scratches with
    | nil =>
      obtain ⟨rfl, -, rfl⟩ := Prod.mk.inj h
      exact ⟨.refl hw.tree, hs.short, hholds, fun _ _ => rfl⟩
    | cons scratch rest =>
      obtain ⟨rfl, -, rfl⟩ := Prod.mk.inj h
      obtain ⟨σ, hm⟩ := hs.phase.made scratch List.mem_cons_self
      obtain ⟨ht, hnone⟩ := World.dropScratch_touches hw hm (hs.short scratch List.mem_cons_self)
      have hsub : ∀ path ∈ [scratch] ++ scratch :: rest, path ∈ scratch :: rest := by simp
      have hholds' := (hholds.touches hw.tree ht).mono hsub
      exact ⟨.of_touches ht, fun path hpath => hs.short path (List.mem_cons_of_mem _ hpath),
        hholds'.tail hw' (ht.disk.cwd ▸ hm.path) hnone, fun _ => ht.disk.get?_archive hw.tree⟩
  cases hjob : p.job? with
  | none =>
    obtain ⟨rfl, hbefore, hafter⟩ := looks hw.undisturbed hjob hprepare
      (fun job scratches result heq => hdiscard ⟨job, scratches, result, heq⟩) h
    rw [hbefore] at hholds
    exact ⟨.refl hw.tree, by simp [hafter], hafter ▸ hholds, fun _ _ => rfl⟩
  | some job =>
    by_cases hpublish : ∃ build workspace hash, p = .publish build workspace hash
    · obtain ⟨build, workspace, hash, rfl⟩ := hpublish
      exact hs.publish_stirs hw' h
    obtain ⟨-, hbuilds⟩ := Phase.step_builds hw hs.phase hjob hmake
      (fun build workspace hash heq => hpublish ⟨build, workspace, hash, heq⟩) h
    refine ⟨.of_touches hbuilds.touches, fun path hpath => ?_,
      (hholds.touches hw.tree hbuilds.touches).mono fun path hpath => ?_,
      fun _ => hbuilds.touches.disk.get?_archive hw.tree⟩
    · rcases hbuilds.fresh path hpath with hold | ⟨hlimit, -⟩
      · exact hs.short path hold
      · exact hlimit
    · simp only [List.mem_append] at hpath
      rcases hpath with (hpath | hpath) | hpath
      · exact hbuilds.kept path hpath
      · exact hpath
      · exact hbuilds.kept path hpath

/-- Directories of the cache root are made in order, up to one that cannot be made. -/
theorem ensure_take {d d' : Disk} {dirs : List Bytes} {r : Except Failure Unit}
    (h : Workspace.ensure d dirs = (d', r)) :
    ∃ k, Workspace.ensure d (dirs.take k) = (d', .ok ()) := by
  induction dirs generalizing d with
  | nil =>
    obtain ⟨rfl, -⟩ := Prod.mk.inj h
    exact ⟨0, rfl⟩
  | cons dir dirs ih =>
    rw [Workspace.ensure] at h
    cases hmake : d.makeDirs dir with
    | error e =>
      rw [hmake] at h
      obtain ⟨rfl, -⟩ := Prod.mk.inj h
      exact ⟨0, rfl⟩
    | ok d₁ =>
      rw [hmake] at h
      obtain ⟨k, hk⟩ := ih h
      refine ⟨k + 1, ?_⟩
      rw [List.take_succ_cons, Workspace.ensure, hmake]
      exact hk

theorem IsSound.of_entry (hs : IsSound site seat ⟨w, b, p⟩)
    (ha : Phase.Advances site seat w w' b' p p')
    (hentry : ∀ a n, w'.disk.root.get? (seat.entry a n) = w.disk.root.get? (seat.entry a n))
    (hbefore : p.scratches = []) (hafter : p'.scratches = []) : IsSound site seat ⟨w', b', p'⟩ where
  world := ha.keeps.sound
  archives n x hx := hs.archives n x ((hentry _ _).symm.trans hx)
  builder := ha.builder
  phase := ha.phase
  short := by simp [hafter]
  holds := by
    have hholds := hs.holds
    rw [hbefore] at hholds
    rw [hafter]
    exact hholds.of_get?_eq ha.keeps.cwd hentry

theorem entry_of_sameCache (h : w.SameCache site seat w') (a : Area) (n : Name) :
    w'.disk.root.get? (seat.entry a n) = w.disk.root.get? (seat.entry a n) := by
  rw [Seat.entry, Seat.area, List.append_assoc]
  exact h.below _

theorem entry_of_ensure (hw : w.IsSound site seat) {k : Nat} {d' : Disk} {r : Except Failure Unit}
    (h : Workspace.ensure w.disk (site.dirs.take k) = (d', r)) (a : Area) (n : Name) :
    d'.root.get? (seat.entry a n) = w.disk.root.get? (seat.entry a n) := by
  rw [Site.dirs_eq, ← List.map_take] at h
  exact World.ensure_entry hw h a n

/-- What the step that may make a repository is. -/
theorem prepare_cases {branch path : String}
    (h : (Phase.prepare branch path).step site me w b = (w', b', p')) :
    (∃ f, History.prepare site.repository w = (w', .error f) ∧ b.isReady = false ∧ b' = b ∧
        p' = .done (.error f)) ∨
      p' = .resolve branch path ∧ b' = { b with isReady := true } ∧
        (b.isReady = true ∧ w' = w ∨
          b.isReady = false ∧ History.prepare site.repository w = (w', .ok ())) := by
  unfold Phase.step at h
  dsimp only at h
  cases hready : b.isReady with
  | true =>
    rw [hready, if_pos rfl] at h
    obtain ⟨rfl, rfl, rfl⟩ := Prod.mk.inj h
    refine .inr ⟨rfl, ?_, .inl ⟨rfl, rfl⟩⟩
    obtain ⟨cache, held, isReady⟩ := b
    exact congrArg _ hready
  | false =>
    rw [hready, if_neg Bool.false_ne_true] at h
    cases hprepare : History.prepare site.repository w with
    | mk w₁ r =>
    rw [hprepare] at h
    cases r with
    | error f =>
      obtain ⟨rfl, rfl, rfl⟩ := Prod.mk.inj h
      exact .inl ⟨f, rfl, rfl, rfl, rfl⟩
    | ok u =>
      obtain ⟨rfl, rfl, rfl⟩ := Prod.mk.inj h
      exact .inr ⟨rfl, rfl, .inr ⟨rfl, rfl⟩⟩

theorem makeDirs_cases {job : Job} (h : (Phase.makeDirs job).step site me w b = (w', b', p')) :
    ∃ d, w' = { w with disk := d } ∧ b' = b ∧
      (Workspace.ensure w.disk site.dirs = (d, .ok ()) ∧ p' = .openScratch job ∨
        ∃ f, Workspace.ensure w.disk site.dirs = (d, .error f) ∧ p' = .discard job [] (.error f)) := by
  unfold Phase.step at h
  dsimp only at h
  cases hensure : Workspace.ensure w.disk site.dirs with
  | mk d r =>
  rw [hensure] at h
  cases r with
  | error f =>
    obtain ⟨rfl, rfl, rfl⟩ := Prod.mk.inj h
    exact ⟨d, rfl, rfl, .inr ⟨f, rfl, rfl⟩⟩
  | ok u =>
    obtain ⟨rfl, rfl, rfl⟩ := Prod.mk.inj h
    exact ⟨d, rfl, rfl, .inl ⟨rfl, rfl⟩⟩

variable {s s' : Stage}

theorem IsSound.of_ensure {job : Job} {d' : Disk} {k : Nat} {f : Failure}
    (hs : IsSound site seat ⟨w, b, .makeDirs job⟩)
    (h : Workspace.ensure w.disk (site.dirs.take k) = (d', .ok ())) :
    IsSound site seat ⟨{ w with disk := d' }, b, .discard job [] (.error f)⟩ := by
  have hensure := h
  rw [Site.dirs_eq, ← List.map_take] at hensure
  obtain ⟨hkeeps, -⟩ := World.ensure_keeps [] hs.world hensure
  exact hs.of_entry
    (.of_failed hs.phase hkeeps (List.forall_mem_nil _) (hs.builder.keeps hkeeps) job f)
    (entry_of_ensure hs.world h) rfl rfl

theorem Next.isSound (h : Next site seat me s s') (hs : s.IsSound site seat) :
    s'.IsSound site seat := by
  cases h with
  | @go w w' b b' p p' h hprepare =>
    have ha := Phase.step_advances hs.world hs.archives hs.builder hs.phase hprepare h
    by_cases hprep : ∃ branch path, p = .prepare branch path
    · obtain ⟨branch, path, rfl⟩ := hprep
      have hafter : p'.scratches = [] := by
        rcases prepare_cases h with ⟨f, -, -, -, rfl⟩ | ⟨rfl, -, -⟩ <;> rfl
      exact hs.of_entry ha (entry_of_sameCache (hprepare branch path rfl)) rfl hafter
    by_cases hmake : ∃ job, p = .makeDirs job
    · obtain ⟨job, rfl⟩ := hmake
      obtain ⟨d, rfl, rfl, ⟨hensure, rfl⟩ | ⟨f, hensure, rfl⟩⟩ := makeDirs_cases h <;>
        exact hs.of_entry ha (World.ensure_entry hs.world (Site.dirs_eq site ▸ hensure)) rfl rfl
    have hstirs := hs.stirs ha.keeps.sound (fun branch path heq => hprep ⟨branch, path, heq⟩)
      (fun job heq => hmake ⟨job, heq⟩) h
    refine ⟨ha.keeps.sound, fun n x hx => ?_, ha.builder, ha.phase, hstirs.short, hstirs.holds⟩
    rcases ha.keeps.published n x hx with hold | hnew
    · exact hs.archives n x hold
    · exact hnew
  | @fail w b p p' d' f h hleft =>
    have hw := hs.world
    have ha := Phase.failed_advances hw hs.builder hs.phase h hleft
    have ht : w.Touches site seat p.scratches { w with disk := d' } := ⟨hleft, rfl⟩
    have hsub : ∀ path ∈ p'.scratches, path ∈ p.scratches := by
      rcases Phase.failed?_cases h with ⟨rfl, -, -⟩ | ⟨job, -, rfl⟩
      · exact List.forall_mem_nil _
      · exact fun _ hpath => hpath
    have hsup : ∀ path ∈ p.scratches ++ p.scratches, path ∈ p'.scratches := by
      rcases Phase.failed?_cases h with ⟨rfl, hnone, -⟩ | ⟨job, -, rfl⟩
      · simp [hnone]
      · simp [Phase.scratches]
    refine ⟨ha.keeps.sound, fun n x hx => ?_, ha.builder, ha.phase,
      fun path hpath => hs.short path (hsub path hpath), (hs.holds.touches hw.tree ht).mono hsup⟩
    exact hs.archives n x ((hleft.get?_archive hw.tree n).symm.trans hx)
  | cease f k h => exact hs.of_ensure h
  | probe h =>
    exact hs.of_entry (.of_look hs.world hs.phase hs.builder (List.forall_mem_nil _) trivial
      (by simp [Phase.result?])) (fun _ _ => rfl) rfl rfl

/-- Nothing is published but by a checkout that will answer. -/
theorem Next.archives (h : Next site seat me s s') (hs : s.IsSound site seat)
    (hnone : ∀ outcome, s'.phase.result? ≠ some (.ok outcome)) (n : Name) :
    s'.world.disk.root.get? (seat.archive n) = s.world.disk.root.get? (seat.archive n) := by
  cases h with
  | @go w w' b b' p p' h hprepare =>
    by_cases hprep : ∃ branch path, p = .prepare branch path
    · obtain ⟨branch, path, rfl⟩ := hprep
      exact entry_of_sameCache (hprepare branch path rfl) _ n
    by_cases hmake : ∃ job, p = .makeDirs job
    · obtain ⟨job, rfl⟩ := hmake
      obtain ⟨d, rfl, rfl, ⟨hensure, rfl⟩ | ⟨f, hensure, rfl⟩⟩ := makeDirs_cases h <;>
        exact World.ensure_entry hs.world (Site.dirs_eq site ▸ hensure) _ n
    have ha := Phase.step_advances hs.world hs.archives hs.builder hs.phase hprepare h
    exact (hs.stirs ha.keeps.sound (fun branch path heq => hprep ⟨branch, path, heq⟩)
      (fun job heq => hmake ⟨job, heq⟩) h).archives hnone n
  | fail f h hleft => exact hleft.get?_archive hs.world.tree n
  | cease f k h => exact entry_of_ensure hs.world h _ n
  | probe h => rfl

theorem Next.result? (h : Next site seat me s s') {result : Except Failure Outcome}
    (hresult : s.phase.result? = some result) : s'.phase.result? = some result := by
  cases h with
  | go h => exact Phase.result?_step hresult h
  | fail f h =>
    rcases Phase.failed?_cases h with ⟨-, -, hnone⟩ | ⟨job, hjob, -⟩
    · rw [hnone] at hresult
      cases hresult
    · rw [Phase.result?_of_job? hjob] at hresult
      cases hresult
  | cease => cases hresult
  | probe => cases hresult

/-- A checkout that has not succeeded has published nothing. -/
theorem Goes.archives (h : Goes site seat me s s') (hs : s.IsSound site seat) :
    s'.IsSound site seat ∧ ((∀ outcome, s'.phase.result? ≠ some (.ok outcome)) →
      ∀ n, s'.world.disk.root.get? (seat.archive n) = s.world.disk.root.get? (seat.archive n)) := by
  induction h with
  | refl => exact ⟨hs, fun _ _ => rfl⟩
  | tail _ hnext ih =>
    obtain ⟨hs', hsame⟩ := ih
    refine ⟨hnext.isSound hs', fun hnone n => ?_⟩
    exact (hnext.archives hs' hnone n).trans
      (hsame (fun outcome hresult => hnone outcome (hnext.result? hresult)) n)

end Stage

end Depot
