import Depot.Proofs.Checkout.Rebuild

/-!
A build follows its tree. From the moment its path is found until the copy is hashed, what it has on
the disk is what the tree of its commit and the path decide, whatever other checkouts do meanwhile.
-/

namespace Depot

open Files Fingerprint

/-- What a build is of: a path at the commit that was really cloned. -/
def Build.key (build : Build) : CheckoutKey := ⟨build.commit, build.job.key.path⟩

def Seat.checkout (seat : Seat) (σ : Scratch) : Place := seat.scratch σ ++ [Phase.checkoutName]

namespace World

/-- What there is of the tree of a commit when the repository of the clone is gone. -/
def checkedOut (tree : Entries) : Node := .dir 0o755 (Entries.erase Repository.gitName tree)

/-- The tree of the commit is in the scratch directory of a build, and the path leads to a directory
of it. -/
structure Sees (site : Site) (seat : Seat) (w : World) (build : Build) (tree : Node) (σ : Scratch)
    (src : Place) : Prop where
  made : w.Made site seat build.scratch σ
  bears : w.disk.Bears (seat.checkout σ) tree
  lands : Lands tree build.job.key.path (some src)

variable {site : Site} {seat : Seat} {owned : List Bytes} {w w' : World} {build : Build} {tree : Node}
  {σ : Scratch} {src : Place}

theorem Sees.keeps (hsees : w.Sees site seat build tree σ src) (h : w.Keeps site seat owned w')
    (hown : build.scratch ∉ owned) : w'.Sees site seat build tree σ src := by
  refine ⟨hsees.made.keeps h, ⟨hsees.bears.ne_nil, hsees.bears.names, hsees.bears.short, ?_,
    hsees.bears.dir⟩, hsees.lands⟩
  have hholds := hsees.bears.holds
  rw [Seat.checkout, Node.get?_append] at hholds ⊢
  rwa [h.others σ (hsees.made.path ▸ hown)]

theorem Sees.isSound (hsees : w.Sees site seat build tree σ src) (hw : w.IsSound site seat) :
    tree.IsSound :=
  hw.tree.get? hsees.bears.holds

theorem Made.ne_of_isNew {scratch path : Bytes} (hm : w.Made site seat scratch σ)
    (hw : w.IsSound site seat) (hnew : w.IsNew site path) : path ≠ scratch := by
  rintro rfl
  obtain ⟨τ, hpath, hnumber⟩ := hnew
  obtain rfl := hw.seat.eq_of_path_eq (hm.path.symm.trans hpath)
  have := hm.number
  omega

/-- What is found of a path is what it leads to in the tree that was cloned. -/
theorem IsSound.lands (hw : w.IsSound site seat) (hdir : tree.isDir = true)
    (hheld : w.Has site seat build.scratch fun x => x.get? [Phase.checkoutName] = some tree)
    {path : String} (hnormal : Path.normalize path = .ok build.job.key.path)
    (hcontained : IsContained tree build.job.key.path) {source? : Option Bytes}
    (h : Workspace.subtree? w.disk (Build.checkout build.scratch) build.job.key.path = .ok source?) :
    ∃ σ here?, w.Made site seat build.scratch σ ∧ w.disk.Bears (seat.checkout σ) tree ∧
      Lands tree build.job.key.path here? ∧
        source? = here?.map fun here => Disk.pathOf (seat.checkout σ ++ here) := by
  obtain ⟨σ, x, hm, hget, hcheckout⟩ := hheld
  obtain ⟨hrel, hnul⟩ := Path.relative_of_normalize hnormal
  have hplace : w.disk.root.get? (seat.checkout σ) = some tree := by
    rw [Seat.checkout, Node.get?_append, hget]
    exact hcheckout
  have hl := hw.leads_checkout hm (.of_isDir hplace (by simp [hdir]))
  obtain ⟨hb, here?, hlands, hsource⟩ := Workspace.lands_of_subtree? (hl.go hplace) (by simp)
    (hw.tree.names hplace) hdir hrel hnul hcontained.way h
  exact ⟨σ, here?, hm, hb, hlands, hsource⟩

theorem Made.unique {path : Bytes} {τ : Scratch} (hm : w.Made site seat path σ)
    (hm' : w.Made site seat path τ) (hw : w.IsSound site seat) : σ = τ :=
  hw.seat.eq_of_path_eq (hm.path.symm.trans hm'.path)

end World

namespace Archive

theorem Matches.frame {tree : Node} {top src root : Place} {d d' : Disk} {tasks : List Task}
    {cs : List Chore} {made : Entries} (h : Matches tree top src root d tasks cs made)
    (hget : d'.root.get? root = d.root.get? root) : Matches tree top src root d' tasks cs made :=
  ⟨h.tasks_eq, h.stands, hget ▸ h.holds, h.reached⟩

end Archive

namespace Phase

/-- What a build has on the disk, if it is for this key and the commit of the key has this tree. -/
def Tracks (site : Site) (seat : Seat) (w : World) (key : CheckoutKey) (tree : Node) : Phase → Prop
  | openWorkspace build source => build.key = key → ∃ σ src, w.Sees site seat build tree σ src ∧
    source = Disk.pathOf (seat.checkout σ ++ src)
  | openSource build route => build.key = key → route.dest ≠ build.scratch ∧ ∃ σ src,
    w.Sees site seat build tree σ src ∧ route.source = Disk.pathOf (seat.checkout σ ++ src)
  | copy build route tasks => build.key = key → route.dest ≠ build.scratch ∧ ∃ σ src τ cs made,
    w.Sees site seat build tree σ src ∧ route.source = Disk.pathOf (seat.checkout σ ++ src) ∧
      w.Made site seat route.dest τ ∧
        Archive.Matches tree (seat.checkout σ) src (seat.scratch τ) w.disk tasks cs made
  | hash build workspace => build.key = key → ∃ src made, Lands tree key.path (some src) ∧
    Archive.Reaches tree src ([], made) ∧
      w.Has site seat workspace fun x => ∃ mode, x = .dir mode made
  | _ => True

variable {site : Site} {seat : Seat} {owned : List Bytes} {w w' : World} {key : CheckoutKey}
  {tree : Node} {p p' : Phase} {build : Build} {me : Nat} {b b' : Builder}

theorem Tracks.keeps (hp : p.Tracks site seat w key tree) (h : w.Keeps site seat owned w')
    (hown : ∀ path ∈ p.scratches, path ∉ owned) : p.Tracks site seat w' key tree := by
  cases p with
  | openWorkspace build source =>
    intro hkey
    obtain ⟨σ, src, hsees, hsource⟩ := hp hkey
    exact ⟨σ, src, hsees.keeps h (hown _ (by simp [scratches])), hsource⟩
  | openSource build route =>
    intro hkey
    obtain ⟨hne, σ, src, hsees, hsource⟩ := hp hkey
    exact ⟨hne, σ, src, hsees.keeps h (hown _ (by simp [scratches])), hsource⟩
  | copy build route tasks =>
    intro hkey
    obtain ⟨hne, σ, src, τ, cs, made, hsees, hsource, hm, hmatches⟩ := hp hkey
    have hget := h.others τ (hm.path ▸ hown route.dest (by simp [scratches]))
    exact ⟨hne, σ, src, τ, cs, made, hsees.keeps h (hown _ (by simp [scratches])), hsource, hm.keeps h,
      hmatches.frame hget⟩
  | hash build workspace =>
    intro hkey
    obtain ⟨src, made, hlands, hreached, hx⟩ := hp hkey
    exact ⟨src, made, hlands, hreached, hx.keeps h (hown _ (by simp [scratches]))⟩
  | _ => trivial

end Phase

namespace Run

variable {site : Site} {seat : Seat}

/-- How a checkout has come to where it is: by something of its own, or nothing that it has has
changed. -/
inductive Comes (run : Run site seat) (n me b : Nat) (p : Phase) : Prop
  | started {branch path : String} (h : p = .start branch path)
  | stepped {q : Phase} {b' : Builder} (hme : (run.state n).checkout me = some (b, q))
    (hstep : q.step site me (run.world n) ((run.state n).builder b) = (run.world (n + 1), b', p))
  | failed {q : Phase} {f : Failure} (hme : (run.state n).checkout me = some (b, q))
    (hfail : q.failed? f = some p)
  | left {job : Job} {scratches : List Bytes} {result : Except Failure Outcome}
    (h : p = .discard job scratches result)
  | stayed {owned : List Bytes} (hme : (run.state n).checkout me = some (b, p))
    (hkeeps : (run.world n).Keeps site seat owned (run.world (n + 1)))
    (hown : ∀ path ∈ p.scratches, path ∉ owned)

section tracks

variable {run : Run site seat} {key : CheckoutKey} {tree : Node} (hroom : seat.HasRoom)
  (hdir : tree.isDir = true) (hcommit : ∀ n tree', run.Committed n key.commit tree' → World.checkedOut tree' = tree)
  (hcontained : IsContained tree key.path)

include hroom hdir hcommit hcontained

end tracks

end Run

end Depot
