import Depot.Proofs.Checkout.Integrity
import Depot.Proofs.History.Head

/-!
A run is a system at all times. What its checkouts answer is traced back to what they did before:
the commit to a moment at which the repository told it of the branch, and the archive to a build
that cloned this commit, looked for the path in its tree, copied what was there and hashed the copy.
-/

namespace Depot

open Files Fingerprint

/-- The states of a system at all times. At first no builder remembers anything. -/
structure Run (site : Site) (seat : Seat) where
  state : Nat → System
  initial : (state 0).IsInitial site seat
  forgotten : ∀ b key, ((state 0).builder b).cache.get? key = none
  step : ∀ n, System.Step site seat (state n) (state (n + 1))

/-- The paths of scratch directories and of a few names in them have room. -/
def Seat.HasRoom (seat : Seat) : Prop := (Disk.pathOf seat.top).length + 320 ≤ Disk.pathLimit

/-- A scratch directory holds the tree of a commit, checked out and without a repository. -/
def World.HoldsTree (site : Site) (seat : Seat) (w : World) (scratch : Bytes) (tree : Entries) :
    Prop :=
  w.Has site seat scratch fun x =>
    x.get? [Phase.checkoutName] = some (Node.dir 0o755 (Entries.erase Repository.gitName tree))

namespace Run

variable {site : Site} {seat : Seat} (run : Run site seat)

def world (n : Nat) : World := (run.state n).world

/-- The step that a checkout takes next at some time. -/
def At (n me : Nat) (p : Phase) : Prop := ∃ b, (run.state n).checkout me = some (b, p)

theorem isSound (n : Nat) : (run.state n).IsSound site seat := by
  induction n with
  | zero => exact run.initial.isSound
  | succ n ih => exact ((run.step n).isSound ih).1

/-- Between two times the repository told the commit of a branch, to somebody who asked for it or
who made a clone. -/
def Tells (since n : Nat) (branch : String) (commit : CommitId) : Prop :=
  ∃ i, since ≤ i ∧ i ≤ n ∧
    ((History.tip site.repository branch (run.world i)).2 = .ok commit ∨
      ∃ tree es, (run.world i).Clones site.repository branch commit tree es)

/-- A commit had a tree before some time. -/
def Committed (n : Nat) (commit : CommitId) (tree : Entries) : Prop :=
  ∃ i ≤ n, (run.world i).Commits commit tree

/-- A checkout looks for its path in the tree of its commit. -/
structure Finds (n me : Nat) (build : Build) (source? : Option Bytes) : Prop where
  here : run.At n me (.locate build)
  tree : ∃ tree, run.Committed n build.commit tree ∧
    (run.world n).HoldsTree site seat build.scratch tree
  found : Workspace.subtree? (run.world n).disk (Build.checkout build.scratch)
    build.job.key.path = .ok source?

/-- A checkout that has found its path is about to copy it into an empty directory. -/
def Opens (n me : Nat) (build : Build) (route : Archive.Route) : Prop :=
  ∃ i j, i ≤ j ∧ j ≤ n ∧ run.Finds i me build (some route.source) ∧
    run.At j me (.openSource build route)

/-- A checkout has copied what it found, and takes the hash of it. -/
structure Hashes (n me : Nat) (build : Build) (x : Node) (h : ArchiveHash) : Prop where
  copied : ∃ source workspace, run.Opens n me build ⟨source, workspace⟩ ∧
    run.At n me (.hash build workspace) ∧ (run.world n).Has site seat workspace (· = x)
  isHash : IsHash x h

/-- A build for a path at a commit has come to an outcome before some time. -/
def Yields (n : Nat) (key : CheckoutKey) (archive : Option ArchiveHash) : Prop :=
  ∃ i ≤ n, ∃ me build, key = ⟨build.commit, build.job.key.path⟩ ∧
    match archive with
    | none => run.Finds i me build none
    | some h => ∃ x, run.Hashes i me build x h

/-- A build that is under way is for a branch and a path that was asked for. -/
def IsFor (since n : Nat) (branch path : String) (job : Job) : Prop :=
  job.branch = branch ∧ Path.normalize path = .ok job.key.path ∧
    run.Tells since n branch job.key.commit

/-- An answer is a commit that the branch was at, and what the path yields at this commit. -/
def IsTrue (since n : Nat) (branch path : String) (result : Except Failure Outcome) : Prop :=
  ∀ outcome, result = .ok outcome → run.Tells since n branch outcome.commit ∧
    run.Yields n ⟨outcome.commit, path⟩ outcome.archive

/-- Who gets an answer has asked for a path that has a normal form. -/
def IsAnswer (since n : Nat) (branch path : String) (result : Except Failure Outcome) : Prop :=
  ∀ outcome, result = .ok outcome →
    ∃ normal, Path.normalize path = .ok normal ∧ run.IsTrue since n branch normal result

/-- What is known of a checkout that was asked for a branch and a path at the time `since`. -/
def Accounts (since n me : Nat) (branch path : String) : Phase → Prop
  | .start branch' path' => branch' = branch ∧ path' = path
  | .prepare branch' path' | .resolve branch' path' =>
    branch' = branch ∧ Path.normalize path = .ok path'
  | .lookUp branch' key | .askLock branch' key =>
    branch' = branch ∧ Path.normalize path = .ok key.path ∧ run.Tells since n branch key.commit
  | .acquire job | .lookAgain job | .makeDirs job | .openScratch job | .clone job _ =>
    run.IsFor since n branch path job
  | .readHead job scratch => run.IsFor since n branch path job ∧
    ∃ commit tree es, run.Tells since n branch commit ∧ run.Committed n commit tree ∧
      World.IsClone commit tree es ∧ (run.world n).Has site seat scratch fun x =>
        x.get? [Phase.checkoutName] = some (Node.dir 0o755 es)
  | .strip build => run.IsFor since n branch path build.job ∧ run.Tells since n branch build.commit ∧
    ∃ tree es, run.Committed n build.commit tree ∧ World.IsClone build.commit tree es ∧
      (run.world n).Has site seat build.scratch fun x =>
        x.get? [Phase.checkoutName] = some (Node.dir 0o755 es)
  | .locate build => run.IsFor since n branch path build.job ∧
    run.Tells since n branch build.commit ∧ ∃ tree, run.Committed n build.commit tree ∧
      (run.world n).HoldsTree site seat build.scratch tree
  | .openWorkspace build source => run.IsFor since n branch path build.job ∧
    run.Tells since n branch build.commit ∧ ∃ i ≤ n, run.Finds i me build (some source)
  | .openSource build route => run.IsFor since n branch path build.job ∧
    run.Tells since n branch build.commit ∧ ∃ i ≤ n, run.Finds i me build (some route.source)
  | .copy build route _ => run.IsFor since n branch path build.job ∧
    run.Tells since n branch build.commit ∧ run.Opens n me build route
  | .hash build workspace => run.IsFor since n branch path build.job ∧
    run.Tells since n branch build.commit ∧ ∃ source, run.Opens n me build ⟨source, workspace⟩
  | .share build _ h | .publish build _ h => run.IsFor since n branch path build.job ∧
    run.Tells since n branch build.commit ∧
      run.Yields n ⟨build.commit, build.job.key.path⟩ (some h)
  | .discard job _ result | .remember job result | .finish job result =>
    run.IsFor since n branch path job ∧ run.IsTrue since n branch job.key.path result
  | .release result | .done result => run.IsAnswer since n branch path result

section later

variable {run} {since n me : Nat} {branch path : String} {p : Phase}

theorem Tells.later {commit : CommitId} (h : run.Tells since n branch commit) {m : Nat}
    (hm : n ≤ m) : run.Tells since m branch commit := by
  obtain ⟨i, hsince, hi, htold⟩ := h
  exact ⟨i, hsince, Nat.le_trans hi hm, htold⟩

theorem Committed.later {commit : CommitId} {tree : Entries} (h : run.Committed n commit tree)
    {m : Nat} (hm : n ≤ m) : run.Committed m commit tree := by
  obtain ⟨i, hi, htree⟩ := h
  exact ⟨i, Nat.le_trans hi hm, htree⟩

theorem Committed.isSound {commit : CommitId} {tree : Entries} (h : run.Committed n commit tree) :
    (Node.dir 0o755 tree).IsSound := by
  obtain ⟨i, -, htree⟩ := h
  exact htree.isSound (run.isSound i).world.commits

theorem Opens.later {build : Build} {route : Archive.Route} (h : run.Opens n me build route)
    {m : Nat} (hm : n ≤ m) : run.Opens m me build route := by
  obtain ⟨i, j, hij, hj, hfinds, hopens⟩ := h
  exact ⟨i, j, hij, Nat.le_trans hj hm, hfinds, hopens⟩

theorem Yields.later {key : CheckoutKey} {archive : Option ArchiveHash}
    (h : run.Yields n key archive) {m : Nat} (hm : n ≤ m) : run.Yields m key archive := by
  obtain ⟨i, hi, hyields⟩ := h
  exact ⟨i, Nat.le_trans hi hm, hyields⟩

theorem IsFor.later {job : Job} (h : run.IsFor since n branch path job) {m : Nat} (hm : n ≤ m) :
    run.IsFor since m branch path job :=
  ⟨h.1, h.2.1, h.2.2.later hm⟩

theorem IsTrue.later {result : Except Failure Outcome} (h : run.IsTrue since n branch path result)
    {m : Nat} (hm : n ≤ m) : run.IsTrue since m branch path result :=
  fun outcome ho => ⟨(h outcome ho).1.later hm, (h outcome ho).2.later hm⟩

theorem IsAnswer.later {result : Except Failure Outcome}
    (h : run.IsAnswer since n branch path result) {m : Nat} (hm : n ≤ m) :
    run.IsAnswer since m branch path result := fun outcome ho => by
  obtain ⟨normal, hnormal, htrue⟩ := h outcome ho
  exact ⟨normal, hnormal, htrue.later hm⟩

theorem isAnswer_error (f : Failure) : run.IsAnswer since n branch path (.error f) := nofun

theorem isTrue_error (f : Failure) : run.IsTrue since n branch path (.error f) := nofun

theorem Accounts.later (h : run.Accounts since n me branch path p) {m : Nat} (hm : n ≤ m)
    {owned : List Bytes} (hkeeps : (run.world n).Keeps site seat owned (run.world m))
    (hown : ∀ path ∈ p.scratches, path ∉ owned) : run.Accounts since m me branch path p := by
  have hhas : ∀ {scratch : Bytes} {q : Node → Prop}, scratch ∈ p.scratches →
      (run.world n).Has site seat scratch q → (run.world m).Has site seat scratch q :=
    fun hmem hx => hx.keeps hkeeps (hown _ hmem)
  cases p with
  | start => exact h
  | prepare => exact h
  | resolve => exact h
  | lookUp => exact ⟨h.1, h.2.1, h.2.2.later hm⟩
  | askLock => exact ⟨h.1, h.2.1, h.2.2.later hm⟩
  | acquire => exact IsFor.later h hm
  | lookAgain => exact IsFor.later h hm
  | makeDirs => exact IsFor.later h hm
  | openScratch => exact IsFor.later h hm
  | clone => exact IsFor.later h hm
  | readHead =>
    obtain ⟨hfor, commit, tree, es, htells, htree, hclone, hx⟩ := h
    exact ⟨hfor.later hm, commit, tree, es, htells.later hm, htree.later hm, hclone,
      hhas (by simp [Phase.scratches]) hx⟩
  | strip =>
    obtain ⟨hfor, htells, tree, es, htree, hclone, hx⟩ := h
    exact ⟨hfor.later hm, htells.later hm, tree, es, htree.later hm, hclone,
      hhas (by simp [Phase.scratches]) hx⟩
  | locate =>
    obtain ⟨hfor, htells, tree, htree, hx⟩ := h
    exact ⟨hfor.later hm, htells.later hm, tree, htree.later hm, hhas (by simp [Phase.scratches]) hx⟩
  | openWorkspace =>
    obtain ⟨hfor, htells, i, hi, hfinds⟩ := h
    exact ⟨hfor.later hm, htells.later hm, i, Nat.le_trans hi hm, hfinds⟩
  | openSource =>
    obtain ⟨hfor, htells, i, hi, hfinds⟩ := h
    exact ⟨hfor.later hm, htells.later hm, i, Nat.le_trans hi hm, hfinds⟩
  | copy => exact ⟨h.1.later hm, h.2.1.later hm, h.2.2.later hm⟩
  | hash =>
    obtain ⟨hfor, htells, source, hopens⟩ := h
    exact ⟨hfor.later hm, htells.later hm, source, hopens.later hm⟩
  | share => exact ⟨h.1.later hm, h.2.1.later hm, h.2.2.later hm⟩
  | publish => exact ⟨h.1.later hm, h.2.1.later hm, h.2.2.later hm⟩
  | discard => exact ⟨h.1.later hm, h.2.later hm⟩
  | remember => exact ⟨h.1.later hm, h.2.later hm⟩
  | finish => exact ⟨h.1.later hm, h.2.later hm⟩
  | release => exact IsAnswer.later h hm
  | done => exact IsAnswer.later h hm

end later

end Run

namespace Phase

theorem run_add (site : Site) (me m n : Nat) (w : World) (b : Builder) (p : Phase) :
    run site me (m + n) w b p =
      run site me n (run site me m w b p).1 (run site me m w b p).2.1 (run site me m w b p).2.2 := by
  induction m generalizing w b p with
  | zero => rw [Nat.zero_add, run]
  | succ m ih =>
    rw [Nat.succ_add, run, run]
    exact ih _ _ _

theorem run_one (site : Site) (me : Nat) (w : World) (b : Builder) (p : Phase) :
    run site me 1 w b p = p.step site me w b := rfl

/-- Some steps that lead a checkout from a state to another, and what holds all the way. -/
structure Leg (site : Site) (me : Nat) (holds : World × Builder × Phase → Prop)
    (s s' : World × Builder × Phase) : Type where
  steps : Nat
  run : Phase.run site me steps s.1 s.2.1 s.2.2 = s'
  holds : ∀ m ≤ steps, holds (Phase.run site me m s.1 s.2.1 s.2.2)

namespace Leg

variable {site : Site} {me : Nat} {holds : World × Builder × Phase → Prop}
  {s s' s'' : World × Builder × Phase}

def one (hrun : Phase.run site me 1 s.1 s.2.1 s.2.2 = s') (h : holds s) (h' : holds s') :
    Leg site me holds s s' := by
  refine ⟨1, hrun, fun m hm => ?_⟩
  rcases Nat.le_one_iff_eq_zero_or_eq_one.mp hm with rfl | rfl
  · exact h
  · exact hrun ▸ h'

def trans (h : Leg site me holds s s') (h' : Leg site me holds s' s'') : Leg site me holds s s'' := by
  refine ⟨h.steps + h'.steps, by rw [Phase.run_add, h.run]; exact h'.run, fun k hk => ?_⟩
  by_cases hkm : k ≤ h.steps
  · exact h.holds k hkm
  · obtain ⟨j, rfl⟩ := Nat.exists_eq_add_of_le (Nat.le_of_not_le hkm)
    rw [Phase.run_add, h.run]
    exact h'.holds j (by omega)

end Leg

theorem run_done (site : Site) (me n : Nat) (w : World) (b : Builder)
    (result : Except Failure Outcome) : run site me n w b (done result) = (w, b, done result) := by
  induction n with
  | zero => rfl
  | succ n ih => exact ih

theorem clone_step {site : Site} {job : Job} {scratch : Bytes} {w w' : World} (me : Nat) (b : Builder)
    (h : History.clone site.repository job.branch (Build.checkout scratch) w = (w', .ok ())) :
    (clone job scratch).step site me w b = (w', b, readHead job scratch) := by
  unfold step
  simp only [h]

theorem readHead_step {site : Site} {job : Job} {scratch : Bytes} {w w' : World} {commit : CommitId}
    (me : Nat) (b : Builder) (h : History.head (Build.checkout scratch) w = (w', .ok commit)) :
    (readHead job scratch).step site me w b = (w', b, strip ⟨job, scratch, commit⟩) := by
  unfold step
  simp only [h]

theorem isReady_step {site : Site} {me : Nat} {w w' : World} {b b' : Builder} {p p' : Phase}
    (h : p.step site me w b = (w', b', p')) (hb : b.isReady = true) : b'.isReady = true := by
  unfold step at h
  split at h
  all_goals
    try dsimp only at h
    repeat' split at h
    all_goals
      obtain ⟨-, rfl, -⟩ := Prod.mk.inj h
      exact hb

theorem prepare_of_isReady (site : Site) (me : Nat) (w : World) {b : Builder} (branch path : String)
    (hb : b.isReady = true) :
    (prepare branch path).step site me w b = (w, b, resolve branch path) := if_pos hb

theorem isReady_run {site : Site} {me n : Nat} {w : World} {b : Builder} {p : Phase}
    (hb : b.isReady = true) : (run site me n w b p).2.1.isReady = true := by
  induction n generalizing w b p with
  | zero => exact hb
  | succ n ih =>
    obtain ⟨w', b', p', hstep⟩ : ∃ w' b' p', p.step site me w b = (w', b', p') := ⟨_, _, _, rfl⟩
    rw [run, hstep]
    exact ih (isReady_step hstep hb)

end Phase

namespace System

/-- The states of a system in which one checkout goes on by itself. -/
def alone (site : Site) (branch path : String) (w : World) (b : Builder) : Nat → System
  | 0 => { world := w, builder := fun _ => b }
  | n + 1 =>
    let (w', b', p) := Phase.run site 0 n w b (.start branch path)
    { world := w', builder := Function.update (fun _ => b) 0 b',
      checkout := Function.update (fun _ => none) 0 (some (0, p)) }

variable {site : Site} {seat : Seat} {branch path : String} {w : World} {b : Builder}

theorem alone_succ (site : Site) (branch path : String) (w : World) (b : Builder) (n : Nat) :
    alone site branch path w b (n + 1) =
      ⟨(Phase.run site 0 n w b (.start branch path)).1,
        Function.update (fun _ => b) 0 (Phase.run site 0 n w b (.start branch path)).2.1,
        Function.update (fun _ => none) 0
          (some (0, (Phase.run site 0 n w b (.start branch path)).2.2))⟩ := rfl

/-- A builder that knows its repository never makes one. -/
theorem step_alone (hready : b.isReady = true) {n : Nat}
    (hs : (alone site branch path w b n).IsSound site seat) :
    Step site seat (alone site branch path w b n) (alone site branch path w b (n + 1)) := by
  cases n with
  | zero =>
    have hnone : (alone site branch path w b 0).checkout 0 = none := rfl
    have hlaunch : Step site seat _ _ := .launch (b := 0) branch path hnone
    rw [alone_succ, Phase.run, Function.update_eq_self]
    exact hlaunch
  | succ n =>
    have hb : (Phase.run site 0 n w b (.start branch path)).2.1.isReady = true :=
      Phase.isReady_run hready
    rw [alone_succ] at hs
    rw [alone_succ, alone_succ, Phase.run_add]
    generalize Phase.run site 0 n w b (.start branch path) = r at hb hs
    obtain ⟨w₁, b₁, p⟩ := r
    obtain ⟨w₂, b₂, p', hstep⟩ : ∃ w₂ b₂ p', p.step site 0 w₁ b₁ = (w₂, b₂, p') := ⟨_, _, _, rfl⟩
    let s : System := ⟨w₁, Function.update (fun _ => b) 0 b₁,
      Function.update (fun _ => none) 0 (some (0, p))⟩
    have hp : s.checkout 0 = some (0, p) := by simp [s]
    have hadvance : Step site seat s _ :=
      .advance hp (by simpa [s] using hstep) (fun branch path hp => by
        rw [hp, Phase.prepare_of_isReady site 0 w₁ branch path hb] at hstep
        obtain ⟨rfl, -⟩ := Prod.mk.inj hstep
        exact ⟨hs.world, rfl, rfl, fun _ => rfl⟩)
    simpa [s, Phase.run, hstep] using hadvance

end System

def Run.alone {site : Site} {seat : Seat} {w : World} {b : Builder} (branch path : String)
    (h : (System.alone site branch path w b 0).IsInitial site seat) (hready : b.isReady = true)
    (hforgotten : b.cache.entries = []) : Run site seat where
  state := System.alone site branch path w b
  initial := h
  forgotten _ key := by
    show assoc? key b.cache.entries = none
    rw [hforgotten]
    rfl
  step n := by
    have hsound : (System.alone site branch path w b n).IsSound site seat := by
      induction n with
      | zero => exact h.isSound
      | succ n ih => exact ((System.step_alone hready ih).isSound ih).1
    exact System.step_alone hready hsound

end Depot
