import Depot.Proofs.Checkout.Trace

/-!
Checkouts one after the other. One that fails leaves the archives, the memo and the locks as they
were, and those after it answer as if it had not been.
-/

namespace Depot

open Files Fingerprint

section

variable {site : Site} {seat : Seat} {me : Nat} {w w₁ : World}

namespace Workspace

theorem ensure_append {d d' : Disk} {dirs : List Bytes} (h : ensure d dirs = (d', .ok ()))
    (more : List Bytes) : ensure d (dirs ++ more) = ensure d' more := by
  induction dirs generalizing d with
  | nil =>
    obtain ⟨rfl, -⟩ := Prod.mk.inj h
    rfl
  | cons dir dirs ih =>
    rw [ensure] at h
    rw [List.cons_append, ensure]
    cases hmake : d.makeDirs dir with
    | error e =>
      rw [hmake] at h
      cases (Prod.mk.inj h).2
    | ok d₁ =>
      rw [hmake] at h
      exact ih h

theorem ensure_again (hw : w.IsSound site seat) {areas : List Area} {d' : Disk}
    (h : ensure w.disk (areas.map site.areaPath) = (d', .ok ())) :
    ensure d' (areas.map site.areaPath) = (d', .ok ()) := by
  induction areas generalizing w with
  | nil => rfl
  | cons a areas ih =>
    rw [List.map_cons, ensure] at h ⊢
    cases hmake : w.disk.makeDirs (site.areaPath a) with
    | error e =>
      rw [hmake] at h
      cases (Prod.mk.inj h).2
    | ok d₁ =>
      rw [hmake] at h
      obtain ⟨hkeeps, hdir⟩ := World.Keeps.of_makeDirs [] hw hmake
      obtain ⟨hrest, -⟩ := World.ensure_keeps [] hkeeps.sound h
      obtain ⟨base, hl, he⟩ := hw.seat.extends_area a
      obtain ⟨hlimit, hlen⟩ := Disk.short_of_makeDirs hw.tree hl he (hw.seat.isOpen a) hmake
      obtain ⟨base', hl', he'⟩ := hrest.sound.seat.extends_area a
      have hdir' := hrest.areas a hdir
      rw [← Seat.home_append_names] at hdir'
      rw [hl'.makeDirs_of_isDirAt he' hlimit hlen hdir']
      exact ih hkeeps.sound h

theorem ensure_dirs (hw : w.IsSound site seat) {k : Nat} {d : Disk}
    (h : ensure w.disk (site.dirs.take k) = (d, .ok ())) :
    ensure d site.dirs = ensure w.disk site.dirs := by
  have hagain : ensure d (site.dirs.take k) = (d, .ok ()) := by
    rw [Site.dirs_eq, ← List.map_take] at h ⊢
    exact ensure_again hw h
  rw [← List.take_append_drop k site.dirs, ensure_append h, ensure_append hagain]

end Workspace

namespace History

variable {repo : Bytes} {branch : String}

/-- Nothing that is said of a branch depends on the scratch directories made so far. -/
theorem tip_scratches (hf : w.faults = []) (n : Nat) :
    (tip repo branch { w with scratches := n }).2 = (tip repo branch w).2 := by
  have hf' : ({ w with scratches := n } : World).faults = [] := hf
  have hrun : (({ w with scratches := n } : World).runUndisturbed (.tip repo branch)).2 =
      (w.runUndisturbed (.tip repo branch)).2 := by
    unfold World.runUndisturbed
    dsimp only
    cases Repository.find? w.disk repo <;> rfl
  rw [tip, tip]
  cases Branch.validate branch with
  | error f => rfl
  | ok _ =>
    simp only [World.git_eq hf, World.git_eq hf', hrun]
    cases (w.runUndisturbed (.tip repo branch)).2.output (GitRun.tip repo branch).command.text with
    | error f => rfl
    | ok out =>
      dsimp only
      split_ifs <;> rfl

theorem prepare_scratches (hf : w.faults = []) {r : Except Failure Unit}
    (h : prepare repo w = (w₁, r)) (n : Nat) :
    prepare repo { w with scratches := n } = ({ w₁ with scratches := n }, r) := by
  have hf' : ({ w with scratches := n } : World).faults = [] := hf
  have hmake : ∃ d finished, w.runUndisturbed (.init repo) = ({ w with disk := d }, finished) ∧
      ({ w with scratches := n } : World).runUndisturbed (.init repo) =
        ({ w with disk := d, scratches := n }, finished) := by
    unfold World.runUndisturbed
    dsimp only
    rw [World.createRepository, World.createRepository]
    obtain ⟨d, obstacle⟩ := Repository.make w.disk repo
    rcases obstacle with - | (- | ⟨path, e⟩) <;> exact ⟨_, _, rfl, rfl⟩
  obtain ⟨d, finished, hrun, hrun'⟩ := hmake
  have hprobe : ∃ finished,
      ({ w with disk := d } : World).runUndisturbed (.probe repo) = ({ w with disk := d }, finished) ∧
      ({ w with disk := d, scratches := n } : World).runUndisturbed (.probe repo) =
        ({ w with disk := d, scratches := n }, finished) := by
    unfold World.runUndisturbed
    dsimp only
    cases Repository.find? d repo <;> exact ⟨_, rfl, rfl⟩
  obtain ⟨finished', hprobe, hprobe'⟩ := hprobe
  have hd : ({ w with disk := d } : World).faults = [] := hf
  have hd' : ({ w with disk := d, scratches := n } : World).faults = [] := hf
  rw [prepare] at h ⊢
  simp only [World.git_eq hf, World.git_eq hf', hrun, hrun'] at h ⊢
  cases hout : finished.output (GitRun.init repo).command.text with
  | ok out =>
    rw [hout] at h
    obtain ⟨rfl, rfl⟩ := Prod.mk.inj h
    rfl
  | error f =>
    simp only [hout, World.git_eq hd, hprobe] at h
    simp only [World.git_eq hd', hprobe']
    cases hout' : finished'.output (GitRun.probe repo).command.text with
    | ok out =>
      rw [hout'] at h
      obtain ⟨rfl, rfl⟩ := Prod.mk.inj h
      rfl
    | error f' =>
      rw [hout'] at h
      obtain ⟨rfl, rfl⟩ := Prod.mk.inj h
      rfl

end History

/-- What the repository says of a branch does not change when the directories of the cache root are
made. -/
def World.IsApart (site : Site) (branch : String) (w : World) : Prop :=
  ∀ k d, Workspace.ensure w.disk (site.dirs.take k) = (d, .ok ()) →
    (History.tip site.repository branch { w with disk := d }).2 =
      (History.tip site.repository branch w).2

/-- The branch whose commit is not yet known. -/
def Phase.asked? : Phase → Option String
  | start branch _ | prepare branch _ | resolve branch _ => some branch
  | _ => none

theorem Phase.asked?_step {w w' : World} {b b' : Builder} {p p' : Phase} {branch : String}
    (h : p.step site me w b = (w', b', p')) (hp : p'.asked? = some branch) :
    p.asked? = some branch := by
  unfold step at h
  split at h
  all_goals
    try dsimp only at h
    repeat' split at h
    all_goals
      obtain ⟨-, -, rfl⟩ := Prod.mk.inj h
      first | exact hp | cases hp

/-- Two states of a world and a builder, with a checkout of each at the same point. They are the
same but for directories of the cache root, or but for what is made before the repository is read. -/
inductive Twins (site : Site) (w₁ : World) : World → Builder → World → Builder → Phase → Prop
  | same (w : World) (b : Builder) (p : Phase) : Twins site w₁ w b w b p
  | beside {k n : Nat} {d : Disk} {b : Builder} {p : Phase}
    (hdirs : Workspace.ensure w₁.disk (site.dirs.take k) = (d, .ok ())) (hb : b.isReady = true)
    (hp : p.isBuilding = true → ∃ job, p = .makeDirs job) :
    Twins site w₁ { w₁ with disk := d, scratches := n } b { w₁ with scratches := n } b p
  | ahead {w : World} {k n : Nat} {d : Disk} {b : Builder} {p : Phase}
    (hdirs : Workspace.ensure w₁.disk (site.dirs.take k) = (d, .ok ())) (hb : b.isReady = true)
    (hp : p.isEarly = true ∨ ∃ result, p = .done result)
    (hprepare : History.prepare site.repository w = ({ w₁ with scratches := n }, .ok ())) :
    Twins site w₁ { w₁ with disk := d, scratches := n } b w { b with isReady := false } p

namespace Twins

variable {w' v v' : World} {b b' c c' : Builder} {p p' : Phase}

theorem step (hw₁ : w₁.IsSound site seat)
    (hapart : ∀ branch, p.asked? = some branch → w₁.IsApart site branch)
    (ht : Twins site w₁ w b v c p) (h : p.step site me w b = (w', b', p')) :
    ∃ v' c', p.step site me v c = (v', c', p') ∧ Twins site w₁ w' b' v' c' p' := by
  cases ht with
  | same => exact ⟨w', b', h, .same ..⟩
  | @beside k n d b p hdirs hb hp =>
    have hfaults : w₁.faults = [] := hw₁.undisturbed
    cases p
    case start branch path =>
      unfold Phase.step at h ⊢
      dsimp only at h ⊢
      split at h <;> obtain ⟨rfl, rfl, rfl⟩ := Prod.mk.inj h <;>
        exact ⟨_, _, rfl, .beside hdirs hb (by simp [Phase.isBuilding])⟩
    case prepare branch path =>
      rw [Phase.prepare_of_isReady _ _ _ _ _ hb] at h ⊢
      obtain ⟨rfl, rfl, rfl⟩ := Prod.mk.inj h
      exact ⟨_, _, rfl, .beside hdirs hb (by simp [Phase.isBuilding])⟩
    case resolve branch path =>
      have htip : ∀ {w : World} {n : Nat}, w.faults = [] →
          History.tip site.repository branch { w with scratches := n } =
            ({ w with scratches := n }, (History.tip site.repository branch w).2) :=
        fun hf => Prod.ext (History.tip_fst hf) (History.tip_scratches hf _)
      have hleft := htip (w := { w₁ with disk := d }) (n := n) hfaults
      rw [hapart branch rfl k d hdirs] at hleft
      unfold Phase.step at h ⊢
      dsimp only at h ⊢
      rw [hleft] at h
      rw [htip hfaults]
      cases hr : (History.tip site.repository branch w₁).2 <;> rw [hr] at h <;>
        obtain ⟨rfl, rfl, rfl⟩ := Prod.mk.inj h <;> exact ⟨_, _, rfl, .beside hdirs hb (by simp [Phase.isBuilding])⟩
    case lookUp | acquire | lookAgain =>
      unfold Phase.step at h ⊢
      dsimp only at h ⊢
      split at h <;> obtain ⟨rfl, rfl, rfl⟩ := Prod.mk.inj h <;>
        exact ⟨_, _, rfl, .beside hdirs hb (by simp [Phase.isBuilding])⟩
    case askLock | finish | release | done =>
      obtain ⟨rfl, rfl, rfl⟩ := Prod.mk.inj h
      exact ⟨_, _, rfl, .beside hdirs hb (by simp [Phase.isBuilding])⟩
    case makeDirs job =>
      have hsame := Workspace.ensure_dirs hw₁ hdirs
      unfold Phase.step at h ⊢
      dsimp only at h ⊢
      rw [hsame] at h
      cases hensure : Workspace.ensure w₁.disk site.dirs with
      | mk d' r =>
      rw [hensure] at h
      cases r <;> obtain ⟨rfl, rfl, rfl⟩ := Prod.mk.inj h <;> exact ⟨_, _, rfl, .same ..⟩
    all_goals
      obtain ⟨job, hjob⟩ := hp rfl
      cases hjob
  | @ahead v k n d b p hdirs hb hp hprepare =>
    cases p
    case start branch path =>
      unfold Phase.step at h ⊢
      dsimp only at h ⊢
      split at h <;> obtain ⟨rfl, rfl, rfl⟩ := Prod.mk.inj h
      · exact ⟨_, _, rfl, .ahead hdirs hb (.inr ⟨_, rfl⟩) hprepare⟩
      · exact ⟨_, _, rfl, .ahead hdirs hb (.inl rfl) hprepare⟩
    case prepare branch path =>
      rw [Phase.prepare_of_isReady _ _ _ _ _ hb] at h
      obtain ⟨rfl, rfl, rfl⟩ := Prod.mk.inj h
      refine ⟨{ w₁ with scratches := n }, b, ?_, .beside hdirs hb (by simp [Phase.isBuilding])⟩
      unfold Phase.step
      dsimp only
      rw [if_neg Bool.false_ne_true, hprepare]
      obtain ⟨cache, held, isReady⟩ := b
      obtain rfl : isReady = true := hb
      rfl
    case done result =>
      obtain ⟨rfl, rfl, rfl⟩ := Prod.mk.inj h
      exact ⟨_, _, rfl, .ahead hdirs hb hp hprepare⟩
    all_goals simp [Phase.isEarly] at hp

theorem run (hw₁ : w₁.IsSound site seat) {n : Nat}
    (hapart : ∀ branch, p.asked? = some branch → w₁.IsApart site branch)
    (ht : Twins site w₁ w b v c p) (h : Phase.run site me n w b p = (w', b', p')) :
    ∃ v' c', Phase.run site me n v c p = (v', c', p') ∧ Twins site w₁ w' b' v' c' p' := by
  induction n generalizing w b v c p with
  | zero =>
    obtain ⟨rfl, rfl, rfl⟩ := Prod.mk.inj h
    exact ⟨v, c, rfl, ht⟩
  | succ n ih =>
    obtain ⟨w₂, b₂, p₂, hstep⟩ : ∃ w₂ b₂ p₂, p.step site me w b = (w₂, b₂, p₂) := ⟨_, _, _, rfl⟩
    obtain ⟨v₂, c₂, hstep', ht'⟩ := ht.step hw₁ hapart hstep
    rw [Phase.run, hstep] at h
    rw [Phase.run, hstep']
    exact ih (fun branch hp => hapart branch (Phase.asked?_step hstep hp)) ht' h

theorem restart {result : Except Failure Outcome} (ht : Twins site w₁ w b v c (.done result))
    (branch path : String) : Twins site w₁ w b v c (.start branch path) := by
  cases ht with
  | same => exact .same ..
  | beside hdirs hb => exact .beside hdirs hb (by simp [Phase.isBuilding])
  | ahead hdirs hb _ hprepare => exact .ahead hdirs hb (.inl rfl) hprepare

end Twins

/-- What checkouts that are not disturbed answer, one after the other. -/
inductive Replies (site : Site) :
    World → Builder → List (String × String) → List (Except Failure Outcome) → Prop
  | nil (w : World) (b : Builder) : Replies site w b [] []
  | cons {w w' : World} {b b' : Builder} {branch path : String} {result : Except Failure Outcome}
    {requests : List (String × String)} {results : List (Except Failure Outcome)} (me n : Nat)
    (h : Phase.run site me n w b (.start branch path) = (w', b', .done result))
    (hrest : Replies site w' b' requests results) :
    Replies site w b ((branch, path) :: requests) (result :: results)

namespace Twins

variable {v : World} {b c : Builder} {result : Except Failure Outcome}

theorem replies_iff (hw₁ : w₁.IsSound site seat) {requests : List (String × String)}
    (hapart : ∀ request ∈ requests, w₁.IsApart site request.1)
    (ht : Twins site w₁ w b v c (.done result)) (results : List (Except Failure Outcome)) :
    Replies site w b requests results ↔ Replies site v c requests results := by
  induction requests generalizing w b v c result results with
  | nil => constructor <;> intro h <;> cases h <;> exact .nil ..
  | cons request requests ih =>
    obtain ⟨branch, path⟩ := request
    have hstart := ht.restart branch path
    have hfirst : ∀ other, (Phase.start branch path).asked? = some other → w₁.IsApart site other := by
      rintro other ⟨⟩
      exact hapart (branch, path) List.mem_cons_self
    have hrest' : ∀ request ∈ requests, w₁.IsApart site request.1 :=
      fun request hmem => hapart request (List.mem_cons_of_mem _ hmem)
    constructor
    · rintro (_ | ⟨me, n, hrun, hrest⟩)
      obtain ⟨v', c', hrun', ht'⟩ := hstart.run hw₁ hfirst hrun
      exact .cons me n hrun' ((ih hrest' ht' _).mp hrest)
    · rintro (_ | ⟨me, n, hrun, hrest⟩)
      obtain ⟨w', b', p', hrun'⟩ :
          ∃ w' b' p', Phase.run site me n w b (.start branch path) = (w', b', p') := ⟨_, _, _, rfl⟩
      obtain ⟨v', c', hrun'', ht'⟩ := hstart.run hw₁ hfirst hrun'
      obtain ⟨rfl, rfl, rfl⟩ := Prod.mk.inj (hrun.symm.trans hrun'')
      exact .cons me n hrun' ((ih hrest' ht' _).mpr hrest)

end Twins

/-- What can be reached by checkouts that do not overlap, whether they fail or not, by new builders,
and by changes outside of the cache root. -/
inductive Reached (site : Site) (seat : Seat) : World → Builder → Prop
  | start {w : World} (isReady : Bool) (hw : w.IsSound site seat)
    (harchives : ∀ n x, w.disk.root.get? (seat.archive n) = some x → IsArchive n x)
    (hholds : w.HoldsOnly site seat []) : Reached site seat w { isReady := isReady }
  | checkout {w w' : World} {b b' : Builder} {me : Nat} {branch path : String}
    {result : Except Failure Outcome} (hreached : Reached site seat w b)
    (h : Stage.Goes site seat me ⟨w, b, .start branch path⟩ ⟨w', b', .done result⟩) :
    Reached site seat w' b'
  | outside {w w' : World} {b : Builder} (hreached : Reached site seat w b)
    (h : w.SameCache site seat w') : Reached site seat w' b
  | restart {w : World} {b : Builder} (hreached : Reached site seat w b) : Reached site seat w {}

namespace Reached

variable {b : Builder}

theorem isAlone_start (me : Nat) (hlocks : b.cache.locks = []) (hheld : b.held.pairs = []) :
    Stand.IsAlone me b.cache.entries b.cache b.held .apart :=
  ⟨fun _ => rfl, hlocks, by simp [hheld], fun _ => hheld, by simp [Stand.missed?]⟩

/-- Between checkouts nobody has a lock or a scratch directory. -/
theorem isSound (h : Reached site seat w b) (branch path : String) :
    (⟨w, b, .start branch path⟩ : Stage).IsSound site seat ∧ b.cache.locks = [] ∧ b.held.pairs = [] := by
  have hstart : ∀ w : World, (Phase.start branch path).IsSound site seat w := fun w =>
    ⟨List.forall_mem_nil _, trivial, by simp [Phase.result?]⟩
  induction h with
  | start isReady hw harchives hholds =>
    exact ⟨⟨hw, harchives, by simp [Builder.IsSound, Cache.get?, assoc?], hstart _,
      List.forall_mem_nil _, hholds⟩, rfl, rfl⟩
  | @checkout w w' b b' me branch' path' result _ h ih =>
    obtain ⟨hs, hlocks, hheld⟩ := ih
    have hs' := (Stage.Goes.archives h ⟨hs.world, hs.archives, hs.builder,
      ⟨List.forall_mem_nil _, trivial, by simp [Phase.result?]⟩, hs.short, hs.holds⟩).1
    have halone := Stage.Goes.isAlone h (isAlone_start me hlocks hheld)
    exact ⟨⟨hs'.world, hs'.archives, hs'.builder, hstart _, hs'.short, hs'.holds⟩, halone.locks,
      halone.free id⟩
  | @outside w w' b _ h ih =>
    obtain ⟨hs, hrest⟩ := ih
    have hentry := Stage.entry_of_sameCache h
    exact ⟨⟨h.sound, fun n x hx => hs.archives n x ((hentry _ _).symm.trans hx),
      hs.builder.keeps (.of_sameCache [] h), hstart _, hs.short,
      hs.holds.of_get?_eq h.cwd hentry⟩, hrest⟩
  | restart _ ih =>
    obtain ⟨hs, -⟩ := ih
    exact ⟨⟨hs.world, hs.archives, by simp [Builder.IsSound, Cache.get?, assoc?], hstart _,
      hs.short, hs.holds⟩, rfl, rfl⟩

variable {w' : World} {b' : Builder} {branch path : String} {f : Failure}

theorem builder_eq (hreached : Reached site seat w b)
    (h : Stage.Goes site seat me ⟨w, b, .start branch path⟩ ⟨w', b', .done (.error f)⟩) :
    b' = { b with cache := { b.cache with fresh := b'.cache.fresh }, isReady := b'.isReady } := by
  obtain ⟨-, hlocks, hheld⟩ := hreached.isSound branch path
  have halone := Stage.Goes.isAlone h (isAlone_start me hlocks hheld)
  obtain ⟨⟨entries, locks, fresh⟩, ⟨pairs⟩, isReady⟩ := b
  obtain ⟨⟨entries', locks', fresh'⟩, ⟨pairs'⟩, isReady'⟩ := b'
  obtain rfl : entries' = entries := halone.memo (by simp [Phase.stand, Stand.result?])
  obtain rfl : locks' = [] := halone.locks
  obtain rfl : pairs' = [] := halone.free id
  obtain rfl : locks = [] := hlocks
  obtain rfl : pairs = [] := hheld
  rfl

theorem world_cases {w₁ : World} (hreached : Reached site seat w b)
    (h : Stage.Goes site seat me ⟨w, b, .start branch path⟩ ⟨w', b', .done (.error f)⟩)
    (hset : b.Settles site seat w w₁) :
    w' = w ∧ b'.isReady = b.isReady ∨
      b'.isReady = true ∧ ∃ k d, Workspace.ensure w₁.disk (site.dirs.take k) = (d, .ok ()) ∧
        w' = { w₁ with disk := d, scratches := w'.scratches } := by
  obtain ⟨hs, -⟩ := hreached.isSound branch path
  obtain ⟨hs', harchives⟩ := Stage.Goes.archives h hs
  have htrace : Stage.Trace site seat w b w₁ ⟨w', b', .done (.error f)⟩ :=
    Stage.Goes.trace hset hs h (.early (.inl rfl) rfl)
  cases htrace with
  | early _ hb => exact .inl ⟨rfl, hb⟩
  | reading hp => cases hp
  | @late _ _ _ k d _ _ hb hdirs hstays =>
    refine .inr ⟨hb, k, d, hdirs, ?_⟩
    have hw₁ := hset.same.sound
    have hentry : ∀ a n, d.root.get? (seat.entry a n) = w.disk.root.get? (seat.entry a n) :=
      fun a n => (Stage.entry_of_ensure hw₁ hdirs a n).trans (Stage.entry_of_sameCache hset.same a n)
    have hempty : ∀ {v : World} a n, v.HoldsOnly site seat [] → a ≠ .archives →
        v.disk.root.get? (seat.entry a n) = none := by
      intro v a n hholds ha
      by_contra hsome
      obtain ⟨x, hx⟩ := Option.ne_none_iff_exists'.mp hsome
      obtain ⟨σ, hσ, -⟩ := hholds a n x ha hx
      cases hσ
    have hsound : d.root.IsSound := by
      rw [Site.dirs_eq, ← List.map_take] at hdirs
      exact (World.ensure_keeps [] hw₁ hdirs).1.sound.tree
    have hdisk : w'.disk = d := hstays.disk_eq hsound fun a n => by
      by_cases ha : a = .archives
      · subst ha
        exact (harchives (by simp [Phase.result?]) n).trans (hentry _ n).symm
      · rw [hempty a n hs'.holds ha]
        exact ((hentry a n).trans (hempty a n hs.holds ha)).symm
    obtain ⟨disk, commits, faults, scratches⟩ := w'
    obtain rfl : disk = d := hdisk
    obtain rfl : commits = w₁.commits := hstays.commits
    obtain rfl : faults = [] := hs'.world.undisturbed
    rw [← hw₁.undisturbed]

/-- A checkout that fails, at whatever step, leaves the archives, the memo and the locks as they
were, and nothing in the directories of clones and of archives being built. If there is a repository
to be had, it is made at most once: either nothing has come of it, or it is there and only
directories of the cache root are new. The next checkouts then answer what they would have answered,
had their scratch directories and locks had the same numbers. -/
theorem unchanged_of_error (hreached : Reached site seat w b)
    (h : Stage.Goes site seat me ⟨w, b, .start branch path⟩ ⟨w', b', .done (.error f)⟩) :
    (∀ n, w'.disk.root.get? (seat.archive n) = w.disk.root.get? (seat.archive n)) ∧
      b'.cache.entries = b.cache.entries ∧ b'.cache.locks = b.cache.locks ∧
      (∀ a n, a ≠ .archives → w'.disk.root.get? (seat.entry a n) = none) ∧
      ∀ w₁, b.Settles site seat w w₁ →
        (w' = w ∧ b'.isReady = b.isReady ∨
          b'.isReady = true ∧ ∃ k d, Workspace.ensure w₁.disk (site.dirs.take k) = (d, .ok ()) ∧
            w' = { w₁ with disk := d, scratches := w'.scratches }) ∧
        ∀ requests, (∀ request ∈ requests, w₁.IsApart site request.1) → ∀ results,
          Replies site w' b' requests results ↔
            Replies site { w with scratches := w'.scratches }
              { b with cache := { b.cache with fresh := b'.cache.fresh } } requests results := by
  obtain ⟨hs, -⟩ := hreached.isSound branch path
  obtain ⟨hs', harchives⟩ := Stage.Goes.archives h hs
  have hb := hreached.builder_eq h
  refine ⟨harchives (by simp [Phase.result?]), by rw [hb], by rw [hb], fun a n ha => ?_,
    fun w₁ hset => ⟨hreached.world_cases h hset, fun requests hapart results => ?_⟩⟩
  · by_contra hsome
    obtain ⟨x, hx⟩ := Option.ne_none_iff_exists'.mp hsome
    obtain ⟨σ, hσ, -⟩ := hs'.holds a n x ha hx
    cases hσ
  have hw₁ := hset.same.sound
  rcases hreached.world_cases h hset with ⟨rfl, hready⟩ | ⟨hready, k, d, hdirs, hw'⟩
  · rw [hb, hready]
  · rw [hw', hb, hready]
    have htwins : Twins site w₁ { w₁ with disk := d, scratches := w'.scratches }
        { b with cache := { b.cache with fresh := b'.cache.fresh }, isReady := true }
        { w with scratches := w'.scratches }
        { b with cache := { b.cache with fresh := b'.cache.fresh } } (.done (.error f)) := by
      obtain ⟨cache, held, isReady⟩ := b
      cases isReady with
      | true =>
        obtain rfl := hset.ready rfl
        exact .beside hdirs rfl (by simp [Phase.isBuilding])
      | false =>
        exact .ahead hdirs rfl (.inr ⟨_, rfl⟩)
          (History.prepare_scratches hs.world.undisturbed (hset.made rfl) _)
    exact htwins.replies_iff hw₁ hapart results

end Reached

theorem Stage.Goes.of_run {n : Nat} {w' : World} {b' : Builder} {p p' : Phase}
    (hs : (⟨w, b, p⟩ : Stage).IsSound site seat) (hb : b.isReady = true)
    (h : Phase.run site me n w b p = (w', b', p')) :
    Stage.Goes site seat me ⟨w, b, p⟩ ⟨w', b', p'⟩ := by
  induction n generalizing w b p with
  | zero =>
    obtain ⟨rfl, rfl, rfl⟩ := Prod.mk.inj h
    exact .refl
  | succ n ih =>
    obtain ⟨w₂, b₂, p₂, hstep⟩ : ∃ w₂ b₂ p₂, p.step site me w b = (w₂, b₂, p₂) := ⟨_, _, _, rfl⟩
    rw [Phase.run, hstep] at h
    have hnext : Stage.Next site seat me ⟨w, b, p⟩ ⟨w₂, b₂, p₂⟩ := by
      refine .go hstep ?_
      rintro branch path rfl
      rw [Phase.prepare_of_isReady _ _ _ _ _ hb] at hstep
      obtain ⟨rfl, -⟩ := Prod.mk.inj hstep
      exact ⟨hs.world, rfl, rfl, fun _ => rfl⟩
    exact (ih (hnext.isSound hs) (Phase.isReady_step hstep hb) h).head hnext

end

namespace Solo

def failure : Failure := .internal "no clone"

def cleared : World := world (cache [] [] []) 1

def cleaned : Builder := { cache := { fresh := 1 }, isReady := true }

theorem reached : Reached site seat (world [] 0) idle := by
  refine .start true isInitial.world (fun n x hx => ?_) fun a n x _ hx => ?_
  · cases hx
  · cases a <;> cases hx

theorem isApart : (world [] 0).IsApart site "x" := by
  have htip : ∀ k ≤ 3, (History.tip site.repository "x" { world [] 0 with
      disk := (Workspace.ensure (world [] 0).disk (site.dirs.take k)).1 }).2 =
        (History.tip site.repository "x" (world [] 0)).2 := by decide +kernel
  intro k d h
  by_cases hk : k ≤ 3
  · have hd := htip k hk
    rwa [h] at hd
  · have hd := htip 3 (Nat.le_refl 3)
    have hall : site.dirs.take k = site.dirs.take 3 :=
      (List.take_of_length_le (Nat.le_of_not_le hk)).trans (List.take_of_length_le (Nat.le_refl _)).symm
    rwa [← hall, h] at hd

theorem goes : Stage.Goes site seat 0 ⟨world [] 0, idle, .start "x" "."⟩
    ⟨cleared, cleaned, .done (.error failure)⟩ := by
  obtain ⟨hs, -⟩ := reached.isSound "x" "."
  have hclone : Stage.Goes site seat 0 ⟨world [] 0, idle, .start "x" "."⟩
      ⟨before, building, .clone job scratch⟩ := by
    refine .of_run hs rfl (n := 9) ?_
    exact ((Stretch.lock.trans Stretch.makeDirs).trans Stretch.openScratch).run
  have hs' := (Stage.Goes.archives hclone hs).1
  have hfails : Stage.Next site seat 0 ⟨before, building, .clone job scratch⟩
      ⟨before, building, .discard job [scratch] (.error failure)⟩ :=
    .fail failure rfl ⟨hs'.world.tree, rfl, fun _ _ => rfl⟩
  exact (hclone.tail hfails).trans (Stage.Goes.of_run (hfails.isSound hs') rfl (n := 5) (by decide +kernel))

end Solo

namespace Reached

/-- A clone that fails, and the next checkout of the same branch. -/
theorem unchanged_of_error_clone :
    (∀ n, Solo.cleared.disk.root.get? (Solo.seat.archive n) =
        (Solo.world [] 0).disk.root.get? (Solo.seat.archive n)) ∧
      Solo.cleaned.cache.entries = [] ∧ Solo.cleaned.cache.locks = [] ∧
      (∀ a n, a ≠ .archives → Solo.cleared.disk.root.get? (Solo.seat.entry a n) = none) ∧
      ∀ results, Replies Solo.site Solo.cleared Solo.cleaned [("x", ".")] results ↔
        Replies Solo.site { Solo.world [] 0 with scratches := 1 }
          { cache := { fresh := 1 }, isReady := true } [("x", ".")] results := by
  obtain ⟨harchives, hentries, hlocks, hempty, hlater⟩ :=
    Solo.reached.unchanged_of_error Solo.goes
  have hset : Solo.idle.Settles Solo.site Solo.seat (Solo.world [] 0) (Solo.world [] 0) :=
    ⟨fun _ => rfl, by simp [Solo.idle], by simp [Solo.idle], Solo.isInitial.world, rfl, rfl, fun _ => rfl⟩
  obtain ⟨-, hreplies⟩ := hlater _ hset
  refine ⟨harchives, hentries, hlocks, hempty, hreplies [("x", ".")] fun request hmem => ?_⟩
  obtain rfl := List.mem_singleton.mp hmem
  exact Solo.isApart

end Reached

end Depot
