import Depot.Checkout.Machine
import Depot.Proofs.Checkout.Answers

/-!
Paths that lead to no directory. If there is nothing at the end of a path, or something that is no
directory, then it is an answer that there is no archive; it is remembered, and the search for a
package goes on. But a path that cannot be followed to its end for any other reason, such as a file
in its middle, fails the checkout and the search with it.
-/

namespace Depot

open Files Fingerprint

/-- The branch is at a commit, and it can be cloned at this commit: all goes well until the path is
looked for in the clone, which is in a new scratch directory and has lost its repository. -/
structure World.Fetches (site : Site) (branch : String) (w : World) (commit : CommitId)
    (scratch : Bytes) (w' : World) : Prop where
  tip : History.tip site.repository branch w = (w, .ok commit)
  clone : ∃ d w₁ w₂ d', Workspace.ensure w.disk site.dirs = (d, .ok ()) ∧
    { w with disk := d }.makeScratch site.cloneArea "clone-" = (w₁, .ok scratch) ∧
    History.clone site.repository branch (Build.checkout scratch) w₁ = (w₂, .ok ()) ∧
    History.head (Build.checkout scratch) w₂ = (w₂, .ok commit) ∧
    w₂.disk.remove (Path.below (Build.checkout scratch) [Repository.gitName]) = .ok d' ∧
    w' = { w₂ with disk := d' }

section fetch

variable {site : Site} {seat : Seat} {w w' : World} {branch : String} {commit : CommitId}
  {tree : Entries} {scratch : Bytes}

/-- What a branch was fetched for: the tree of the commit is there, and no archive has changed. -/
theorem World.Fetches.holdsTree (h : w.Fetches site branch commit scratch w')
    (hw : w.IsSound site seat) (hroom : seat.HasRoom) (htree : w.Commits commit tree) :
    w'.IsSound site seat ∧ scratch.length ≤ Disk.pathLimit ∧ w'.HoldsTree site seat scratch tree ∧
      ∀ n, w'.disk.root.get? (seat.archive n) = w.disk.root.get? (seat.archive n) := by
  obtain ⟨-, d, w₁, w₂, d', hdirs, hmake, hclone, hhead, hremove, rfl⟩ := h
  rw [Site.dirs_eq] at hdirs
  obtain ⟨hkeeps, hareas⟩ := ensure_keeps [] hw hdirs
  have hall : ∀ a, d.root.IsDirAt (seat.area a) := fun a => hareas rfl a (by cases a <;> simp)
  have hw₀ := hkeeps.sound
  rcases makeScratch_cases hw₀ hall .clone hmake with ⟨e, hr, -⟩ | ⟨path, hr, -, hkeeps₁, hx⟩
  · cases hr
  obtain rfl := Except.ok.inj hr
  rcases makeScratch_touches hw₀ hall .clone hmake with ⟨e, hr, -⟩ | ⟨σ, hr, -, hlimit, ht₁⟩
  · cases hr
  rw [← Except.ok.inj hr] at hlimit
  obtain ⟨hkeeps₂, hcloned⟩ := clone_keeps hkeeps₁.sound hx hclone
  obtain ⟨commit', tree', es, hclones, hx₂⟩ := hcloned rfl
  have ht₂ := clone_touches hkeeps₁.sound hx hclone
  have hw₂ := hkeeps₂.sound
  obtain ⟨source, ref, name, -, -, -, rfl⟩ := hclones.isClone
  obtain rfl : commit = commit' :=
    hw₂.head_eq hroom hclones.isClone hx₂ hhead
  obtain ⟨_, _, _, -, -, -, htree', -⟩ := id hclones
  obtain rfl := htree.unique htree' ht₁.commits
  obtain ⟨hkeeps₃, hx₃⟩ := strip_keeps hw₂ hx₂ hremove
  have hdir : w₂.Has site seat scratch (·.IsDirAt [Phase.checkoutName]) := by
    obtain ⟨τ, x, hm, hget, hcheckout⟩ := hx₂
    exact ⟨τ, x, hm, hget, _, _, hcheckout⟩
  have ht₃ := strip_touches hw₂ hdir hremove
  have hsound := (Node.isSound_dir_iff.mp (htree'.isSound hkeeps₁.sound.commits)).1
  rw [hsound.erase_insert] at hx₃
  refine ⟨hkeeps₃.sound, hlimit, hx₃, fun n => ?_⟩
  rw [ht₃.disk.get?_archive hw₂.tree, ht₂.disk.get?_archive hkeeps₁.sound.tree,
    ht₁.disk.get?_archive hw₀.tree]
  exact ensure_entry hw hdirs .archives n

theorem World.HoldsTree.subtree?_eq (hx : w.HoldsTree site seat scratch tree)
    (hw : w.IsSound site seat) (hroom : seat.HasRoom) (hhome : ∀ n ∈ seat.home, n.length ≤ 255)
    {path normal : String} (hnormal : Path.normalize path = .ok normal)
    (hin : (⟨linkLimit, [], hops (Utf8.ofString normal)⟩ : Way).IsInside (checkedOut tree)) :
    ∃ σ : Scratch, scratch = σ.path site w.disk.cwd ∧
      Workspace.subtree? w.disk (Build.checkout scratch) normal =
        Workspace.sought (checkedOut tree) (seat.checkout σ) normal := by
  obtain ⟨σ, x, hm, hget, hcheckout⟩ := hx
  obtain ⟨hrel, hnul⟩ := Path.relative_of_normalize hnormal
  have hplace : w.disk.root.get? (seat.checkout σ) = some (checkedOut tree) := by
    rw [Seat.checkout, Node.get?_append, hget]
    exact hcheckout
  have hshort : ∀ n ∈ seat.checkout σ, n.length ≤ 255 := by
    intro n hn
    have hparts : seat.checkout σ = seat.home ++
        (seat.names ++ [σ.purpose.area.name] ++ [σ.name] ++ [Phase.checkoutName]) := by
      simp [Seat.checkout, Seat.scratch, Seat.entry, Seat.area, Seat.top]
    rw [hparts] at hn
    rcases List.mem_append.mp hn with hn | hn
    · exact hhome n hn
    rcases List.mem_append.mp hn with hn | hn
    · exact hm.length n hn
    · exact List.mem_singleton.mp hn ▸ length_checkoutName
  have hlimit := hroom.checkout (hm.length _ (by simp) : σ.name.length ≤ 255)
  exact ⟨σ, hm.path, Workspace.subtree?_eq
    ⟨by simp [Seat.checkout], hw.tree.names hplace, hshort, hplace, rfl⟩
    ((hw.leads_checkout hm ⟨_, _, hplace⟩).go hplace) (Nat.le_of_add_right_le hlimit) hrel hnul hin⟩

end fetch

/-- No archive has come, gone or changed. -/
def World.SameArchives (seat : Seat) (w w' : World) : Prop :=
  ∀ name, w'.disk.root.get? (seat.archive name) = w.disk.root.get? (seat.archive name)

theorem History.commits_of_prepare {repo : Bytes} {w w₁ : World} {r : Except Failure Unit}
    (hf : w.faults = []) (h : prepare repo w = (w₁, r)) : w₁.commits = w.commits := by
  have hmake : ∃ d finished, w.runUndisturbed (.init repo) = ({ w with disk := d }, finished) := by
    unfold World.runUndisturbed
    dsimp only
    rw [World.createRepository]
    obtain ⟨d, obstacle⟩ := Repository.make w.disk repo
    rcases obstacle with - | (- | ⟨path, e⟩) <;> exact ⟨_, _, rfl⟩
  obtain ⟨d, finished, hrun⟩ := hmake
  have hd : ({ w with disk := d } : World).faults = [] := hf
  have hprobe : (({ w with disk := d } : World).git (.probe repo)).1 = { w with disk := d } := by
    rw [World.git_eq hd]
    unfold World.runUndisturbed
    dsimp only
    cases Repository.find? d repo <;> rfl
  simp only [prepare, World.git_eq hf, hrun] at h
  cases hout : finished.output (GitRun.init repo).command.text with
  | ok out =>
    rw [hout] at h
    obtain ⟨rfl, -⟩ := Prod.mk.inj h
    rfl
  | error f =>
    rw [hout] at h
    cases hgit : ({ w with disk := d } : World).git (.probe repo) with
    | mk w₂ r₂ =>
    obtain rfl : w₂ = { w with disk := d } := by rw [← hprobe, hgit]
    dsimp only at h
    rw [hgit] at h
    cases r₂ <;> cases h <;> rfl

/-! ### The steps of a checkout that is alone -/

/-- A builder while it builds: one checkout holds the lock of its key. -/
def Builder.building (b : Builder) (me : Nat) (key : CheckoutKey) : Builder where
  cache := (b.cache.lockFor key).2
  held := ⟨[((b.cache.lockFor key).1, me)]⟩
  isReady := b.isReady

/-- A builder after that: the outcome, if there is one, is remembered, and the lock is given back. -/
def Builder.built (b : Builder) (key : CheckoutKey) (result : Except Failure Outcome) : Builder where
  cache := match result with
    | .ok outcome =>
      ((b.cache.lockFor key).2.insert ⟨outcome.commit, key.path⟩ outcome.archive).dropLock key
    | .error _ => (b.cache.lockFor key).2.dropLock key
  isReady := b.isReady

namespace Phase

variable {site : Site} {me n : Nat} {w w' w₁ : World} {b b' b₁ : Builder} {p p' : Phase}
  {branch path normal : String} {commit : CommitId} {scratch : Bytes} {key : CheckoutKey} {job : Job}

theorem run_succ (h : p.step site me w b = (w', b', p')) :
    run site me (n + 1) w b p = run site me n w' b' p' := by
  rw [run, h]

theorem prepare_step (h : Builder.prepare site w b = (w₁, b₁, .ok ())) (branch path : String) :
    (prepare branch path).step site me w b = (w₁, b₁, resolve branch path) := by
  rw [Builder.prepare] at h
  unfold step
  split_ifs at h ⊢ with hready
  · cases h
    rfl
  · cases hrun : History.prepare site.repository w with
    | mk w₂ r =>
    rw [hrun] at h
    cases r with
    | error f => cases h
    | ok u =>
      cases h
      rfl

theorem run_to_makeDirs (hget : b.cache.get? key = none) (hfree : b.held.pairs = []) :
    run site me 4 w b (lookUp branch key) =
      (w, b.building me key, makeDirs ⟨branch, key, (b.cache.lockFor key).1⟩) := by
  have hlookUp : (lookUp branch key).step site me w b = (w, b, askLock branch key) := by
    unfold step
    simp only [hget]
  have hask : (askLock branch key).step site me w b =
      (w, { b with cache := (b.cache.lockFor key).2 },
        acquire ⟨branch, key, (b.cache.lockFor key).1⟩) := rfl
  have hacquire : (acquire ⟨branch, key, (b.cache.lockFor key).1⟩).step site me w
      { b with cache := (b.cache.lockFor key).2 } =
        (w, b.building me key, lookAgain ⟨branch, key, (b.cache.lockFor key).1⟩) := by
    unfold step
    simp only [Held.acquire?, hfree, assoc?]
    rfl
  have hagain : (b.building me key).cache.get? key = none := by
    rw [← hget, Cache.get?, Cache.get?]
    exact congrArg _ (Cache.entries_lockFor b.cache key)
  have hlookAgain : (lookAgain ⟨branch, key, (b.cache.lockFor key).1⟩).step site me w
      (b.building me key) = (w, b.building me key, makeDirs ⟨branch, key, (b.cache.lockFor key).1⟩) := by
    unfold step
    simp only [hagain]
  rw [run_succ hlookUp, run_succ hask, run_succ hacquire, run_succ hlookAgain]
  rfl

theorem run_to_locate (h : w.Fetches site job.branch commit scratch w') :
    run site me 5 w b (makeDirs job) = (w', b, locate ⟨job, scratch, commit⟩) := by
  obtain ⟨-, d, w₁, w₂, d', hdirs, hmake, hclone, hhead, hremove, rfl⟩ := h
  have hmakeDirs : (makeDirs job).step site me w b = ({ w with disk := d }, b, openScratch job) := by
    unfold step
    simp only [hdirs]
  have hopen : (openScratch job).step site me { w with disk := d } b = (w₁, b, .clone job scratch) := by
    unfold step
    simp only [hmake]
  have hstrip : (strip ⟨job, scratch, commit⟩).step site me w₂ b =
      ({ w₂ with disk := d' }, b, locate ⟨job, scratch, commit⟩) := by
    unfold step
    simp only [hremove]
  rw [run_succ hmakeDirs, run_succ hopen, run_succ (clone_step me b hclone),
    run_succ (readHead_step me b hhead), run_succ hstrip]
  rfl

theorem run_cleared (branch : String) (result : Except Failure Outcome) :
    run site me 4 w (b.building me key)
      (discard ⟨branch, key, (b.cache.lockFor key).1⟩ [] result) =
        (w, b.built key result, done result) := by
  have hend : ∀ job w, (discard job [] result).step site me w (b.building me key) =
      (w, b.building me key, remember job result) := fun _ _ => rfl
  have hfinish : ∀ job w c, (finish job result).step site me w c =
      (w, { c with cache := c.cache.dropLock job.key }, release result) := fun _ _ _ => rfl
  have hrelease : ∀ (w : World) (c : Builder), c.held = (b.building me key).held →
      (release result).step site me w c = (w, { c with held := {} }, done result) := by
    intro w c hc
    have hheld : (b.building me key).held.release me = {} := by
      simp [Builder.building, Held.release]
    unfold step
    rw [hc, hheld]
  rw [run_succ (hend _ _)]
  cases result with
  | error f =>
    have hremember : ∀ job w, (remember job (.error f)).step site me w (b.building me key) =
        (w, b.building me key, finish job (.error f)) := fun _ _ => rfl
    rw [run_succ (hremember _ _), run_succ (hfinish _ _ _), run_one]
    exact hrelease _ _ rfl
  | ok outcome =>
    have hremember : ∀ (job : Job) w, (remember job (.ok outcome)).step site me w
        (b.building me key) = (w, { b.building me key with
          cache := (b.building me key).cache.insert ⟨outcome.commit, job.key.path⟩ outcome.archive },
            finish job (.ok outcome)) := fun _ _ => rfl
    rw [run_succ (hremember _ _), run_succ (hfinish _ _ _), run_one]
    exact hrelease _ _ rfl

end Phase

namespace Builder

variable {site : Site} {w w' w₁ w₂ : World} {b b' b₁ : Builder} {branch path normal : String}
  {commit : CommitId} {scratch : Bytes}

theorem checkout_of_run {n : Nat} (hn : n ≤ someSteps) {result : Except Failure Outcome}
    (h : Phase.run site 0 n w b (.start branch path) = (w', b', .done result)) :
    checkout site branch path w b = (w', b', result) := by
  obtain ⟨k, hk⟩ := Nat.exists_eq_add_of_le hn
  have hrun : Phase.run site 0 someSteps w b (.start branch path) = (w', b', .done result) := by
    rw [hk, Phase.run_add, h]
    exact Phase.run_done ..
  unfold checkout
  simp only [hrun, Phase.run_done]

end Builder

/-! ### The search for a package -/

section search

variable {σ : Type} {source : Source σ} {handle : BranchHandle} {s s' : σ}

end search

theorem Builder.commits_of_prepare {site : Site} {w w₁ : World} {b b₁ : Builder}
    {r : Except Failure Unit} (hf : w.faults = []) (h : prepare site w b = (w₁, b₁, r)) :
    w₁.commits = w.commits := by
  rw [prepare] at h
  split_ifs at h
  · rw [(Prod.mk.inj h).1]
  · cases hrun : History.prepare site.repository w with
    | mk w₂ r₂ =>
    rw [hrun] at h
    cases r₂ <;> cases h <;> exact History.commits_of_prepare hf hrun

theorem World.Commits.of_commits_eq {w w' : World} {commit : CommitId} {tree : Entries}
    (h : w.Commits commit tree) (hsame : w'.commits = w.commits) : w'.Commits commit tree := by
  obtain ⟨snapshot, hsnapshot, htree⟩ := h
  exact ⟨snapshot, hsame ▸ hsnapshot, htree⟩

namespace Workspace

variable {tree : Node} {top : Place} {path : String}

end Workspace

theorem History.validate_of_tip {repo : Bytes} {branch : String} {w w' : World} {commit : CommitId}
    (h : tip repo branch w = (w', .ok commit)) : Branch.validate branch = .ok () := by
  rw [tip] at h
  cases hvalid : Branch.validate branch with
  | error f =>
    rw [hvalid] at h
    cases h
  | ok _ => rfl

namespace Run

variable {site : Site} {seat : Seat}

end Run

namespace Solo

def stock : Entries := [([0x66], .file 0o644 [0x74])]

def stocked (w : World) : World := { w with commits := [(commit, ⟨stock, []⟩)] }

theorem isInitial_stocked :
    ({ world := stocked (world [] 0), builder := fun _ => idle } : System).IsInitial site seat := by
  obtain ⟨hw, harchives, hbuilders, hcheckouts⟩ := isInitial
  refine ⟨⟨hw.tree, hw.seat, ?_, rfl⟩, harchives, hbuilders, hcheckouts⟩
  refine World.hasSoundTrees_of_isSound fun c hc => ?_
  obtain rfl := List.mem_singleton.mp hc
  show (Node.dir 0o755 stock).IsSound
  decide

theorem ofTree?_stock : WorkTree.ofTree? stock = some stock := by decide

end Solo

end Depot
