import Depot.Proofs.Archive.Plan
import Depot.Proofs.Checkout.Provenance

/-!
What a build yields, wherever the tree of the commit is checked out: as long as no link that it
follows leads out of the tree, the tree and the path decide whether there is an archive, and which.
-/

namespace Depot

open Files Archive Fingerprint

/-- Where a path of a tree leads: to a directory, or to nothing that can be an archive. -/
inductive Lands (tree : Node) (path : String) : Option Place → Prop
  | dir {here : Place} {mode : Nat} {es : Entries}
    (h : walk tree true linkLimit [] (hops (Utf8.ofString path)) = .ok ⟨here, some (.dir mode es)⟩) :
    Lands tree path (some here)
  | missing (h : walk tree true linkLimit [] (hops (Utf8.ofString path)) = .error .notFound) :
    Lands tree path none
  | other {found : Found}
    (h : walk tree true linkLimit [] (hops (Utf8.ofString path)) = .ok found)
    (hdir : ∀ x ∈ found.node, x.isDir = false) : Lands tree path none

/-- What a build of a path of a tree yields. -/
inductive Gives (tree : Node) (path : String) : Option ArchiveHash → Prop
  | nothing (h : Lands tree path none) : Gives tree path none
  | archive {src : Place} {made : Entries} {hash : ArchiveHash} (h : Lands tree path (some src))
    (hmade : Reaches tree src ([], made)) (hhash : IsHash (.dir 0o755 made) hash) :
    Gives tree path (some hash)

/-- No link that is followed in a build leads out of the tree: neither one on the way of the path nor
one that is followed in the copy. -/
structure IsContained (tree : Node) (path : String) : Prop where
  way : (⟨linkLimit, [], hops (Utf8.ofString path)⟩ : Way).IsInside tree
  copy : ∀ src, Lands tree path (some src) → Archive.IsConfined tree src

theorem Lands.unique {tree : Node} {path : String} {here? here?' : Option Place}
    (h : Lands tree path here?) (h' : Lands tree path here?') : here? = here?' := by
  cases h with
  | dir h =>
    cases h' with
    | dir h' =>
      cases Except.ok.inj (h.symm.trans h')
      rfl
    | missing h' => cases h.symm.trans h'
    | other h' hdir =>
      cases Except.ok.inj (h.symm.trans h')
      cases hdir _ rfl
  | missing h =>
    cases h' with
    | dir h' => cases h.symm.trans h'
    | missing => rfl
    | other h' => cases h.symm.trans h'
  | other h hdir =>
    cases h' with
    | dir h' =>
      cases Except.ok.inj (h.symm.trans h')
      cases hdir _ rfl
    | missing => rfl
    | other => rfl

theorem Lands.isDirAt {tree : Node} {path : String} {src : Place}
    (h : Lands tree path (some src)) : tree.IsDirAt src := by
  cases h with
  | dir h => exact ⟨_, _, (ends_of_walk_ok (Node.get?_nil tree) h).get?.symm⟩

/-- The tree and the path decide what a build yields. -/
theorem Gives.unique {tree : Node} {path : String} {archive archive' : Option ArchiveHash}
    (h : Gives tree path archive) (h' : Gives tree path archive') : archive = archive' := by
  cases h with
  | nothing h =>
    cases h' with
    | nothing => rfl
    | archive h' => cases h.unique h'
  | archive h hmade hhash =>
    cases h' with
    | nothing h' => cases h.unique h'
    | archive h' hmade' hhash' =>
      cases h.unique h'
      rw [hmade.unique hmade'] at hhash
      rw [hhash.unique hhash']

theorem Path.relative_of_normalize {path normal : String} (h : normalize path = .ok normal) :
    isAbsolute (Utf8.ofString normal) = false ∧ (0 : UInt8) ∉ Utf8.ofString normal := by
  rcases of_normalize_ok h with rfl | ⟨place, hplace⟩
  · decide
  · rw [hplace.text]
    exact ⟨isAbsolute_joinWith hplace.names,
      nul_notMem_joinWith fun n hn => (hplace.names n hn).2.2.2.2⟩

namespace Files.Disk

/-- What a path resolves to is where it leads, unless the path of that place is too long. -/
theorem resolve_eq {d : Disk} {path : Bytes} {found : Found} {x : Node}
    (h : d.go true path = .ok found) (hx : found.node = some x) :
    d.resolve path = if (pathOf found.place).length > pathLimit then .error .nameTooLong
      else .ok (found.place, x) := by
  obtain ⟨place, node?⟩ := found
  obtain rfl : node? = some x := hx
  rw [resolve, h]
  rfl

theorem resolve_of_error {d : Disk} {path : Bytes} {e : Errno} (h : d.go true path = .error e) :
    d.resolve path = .error e := by
  rw [resolve, h]
  rfl

theorem resolve_of_none {d : Disk} {path : Bytes} {place : Place}
    (h : d.go true path = .ok ⟨place, none⟩) : d.resolve path = .error .notFound := by
  rw [resolve, h]
  rfl

end Files.Disk

theorem Files.Disk.LeadsTo.isHash_of_ofTree {d : Disk} {path : Bytes} {place : Place} {mode : Nat}
    {es : Entries} {hash : ArchiveHash} (h : d.LeadsTo path place)
    (hx : d.root.get? place = some (.dir mode es)) (hhash : ofTree d path = .ok hash) :
    IsHash (.dir 0o755 es) hash := by
  rcases h.stat_cases with hstat | ⟨mode', es', hx', hstat⟩
  · rw [ofTree, items, hstat] at hhash
    cases hhash
  · cases Option.some.inj (hx.symm.trans hx')
    exact (IsHash.of_ofTree hstat hhash).congr rfl

namespace Workspace

variable {d : Disk} {checkout : Bytes} {top : Place} {tree : Node} {path : String}
  {source? : Option Bytes}

/-- What is told of a path of a tree at `top`. Only a path that leads to nothing has nothing there. -/
def sought (tree : Node) (top : Place) (path : String) : Except Failure (Option Bytes) :=
  let candidate := Path.join (Disk.pathOf top) (Utf8.ofString path)
  let failed (e : Errno) : Except Failure (Option Bytes) :=
    .error (.ofErrno ("resolving " ++ Utf8.toStringLossy candidate) e)
  match walk tree true linkLimit [] (hops (Utf8.ofString path)) with
  | .error .notFound => .ok none
  | .error e => failed e
  | .ok ⟨_, none⟩ => .ok none
  | .ok ⟨here, some x⟩ =>
    if (Disk.pathOf (top ++ here)).length > Disk.pathLimit then failed .nameTooLong
    else .ok (if x.isDir then some (Disk.pathOf (top ++ here)) else none)

/-- As long as no link on its way leads out of the tree, the tree decides what a path comes to. -/
theorem subtree?_eq (hb : d.Bears top tree) (hgo : d.go true checkout = .ok ⟨top, some tree⟩)
    (hlimit : (Disk.pathOf top).length ≤ Disk.pathLimit)
    (hrel : Path.isAbsolute (Utf8.ofString path) = false) (hnul : (0 : UInt8) ∉ Utf8.ofString path)
    (hin : (⟨linkLimit, [], hops (Utf8.ofString path)⟩ : Way).IsInside tree) :
    subtree? d checkout path = sought tree top path := by
  have hroot := Disk.resolve_eq hgo rfl
  rw [if_neg (Nat.not_lt.mpr hlimit)] at hroot
  have hgo := hb.go_join hrel hnul true
  have hunder := walk_under true hb.holds hin
  rw [List.append_nil] at hunder
  rw [hunder] at hgo
  rw [subtree?, hroot, sought]
  dsimp only
  cases hwalk : walk tree true linkLimit [] (hops (Utf8.ofString path)) with
  | error e =>
    rw [hwalk] at hgo
    rw [Disk.resolve_of_error hgo]
    cases e <;> rfl
  | ok found =>
    obtain ⟨here, node?⟩ := found
    rw [hwalk] at hgo
    cases node? with
    | none => rw [Disk.resolve_of_none hgo]
    | some x =>
      have hfinds := Disk.resolve_eq hgo rfl
      by_cases hlong : (Disk.pathOf (top ++ here)).length > Disk.pathLimit
      · rw [hfinds.trans (if_pos hlong)]
        exact (if_pos hlong).symm
      · rw [hfinds.trans (if_neg hlong)]
        exact (if_neg hlong).symm

/-- The tree decides what a path comes to, unless the path of the tree itself is too long. -/
theorem subtree?_cases (hgo : d.go true checkout = .ok ⟨top, some tree⟩) (hne : top ≠ [])
    (hnames : ∀ n ∈ top, IsName n) (hdir : tree.isDir = true)
    (hrel : Path.isAbsolute (Utf8.ofString path) = false) (hnul : (0 : UInt8) ∉ Utf8.ofString path)
    (hin : (⟨linkLimit, [], hops (Utf8.ofString path)⟩ : Way).IsInside tree) :
    (∃ context, subtree? d checkout path = .error (.ofErrno context .nameTooLong)) ∨
      d.Bears top tree ∧ subtree? d checkout path = sought tree top path := by
  have htree : d.root.get? top = some tree := Disk.get?_of_go hgo
  have hroot := Disk.resolve_eq hgo rfl
  by_cases hlimit : (Disk.pathOf top).length ≤ Disk.pathLimit
  · rw [if_neg (Nat.not_lt.mpr hlimit)] at hroot
    by_cases hshort : ∀ n ∈ top, n.length ≤ 255
    · have hb : d.Bears top tree := ⟨hne, hnames, hshort, htree, hdir⟩
      exact .inr ⟨hb, subtree?_eq hb hgo hlimit hrel hnul hin⟩
    · have hlong := Disk.go_join_of_long hne hnames (.of_isDir htree (by simp [hdir])) hshort hrel
        hnul true
      rw [subtree?, hroot]
      dsimp only
      rw [Disk.resolve_of_error hlong]
      exact .inl ⟨_, rfl⟩
  · rw [subtree?, hroot.trans (if_pos (Nat.lt_of_not_le hlimit))]
    exact .inl ⟨_, rfl⟩

/-- What is found of a path is what the path leads to in the tree, wherever the tree is. -/
theorem lands_of_subtree? (hgo : d.go true checkout = .ok ⟨top, some tree⟩) (hne : top ≠ [])
    (hnames : ∀ n ∈ top, IsName n) (hdir : tree.isDir = true)
    (hrel : Path.isAbsolute (Utf8.ofString path) = false) (hnul : (0 : UInt8) ∉ Utf8.ofString path)
    (hin : (⟨linkLimit, [], hops (Utf8.ofString path)⟩ : Way).IsInside tree)
    (h : subtree? d checkout path = .ok source?) :
    d.Bears top tree ∧ ∃ here?, Lands tree path here? ∧
      source? = here?.map fun here => Disk.pathOf (top ++ here) := by
  rcases subtree?_cases hgo hne hnames hdir hrel hnul hin with ⟨context, hlong⟩ | ⟨hb, heq⟩
  · rw [hlong] at h
    cases h
  refine ⟨hb, ?_⟩
  rw [heq, sought] at h
  cases hwalk : walk tree true linkLimit [] (hops (Utf8.ofString path)) with
  | error e =>
    rw [hwalk] at h
    cases e <;> cases h
    exact ⟨none, .missing hwalk, rfl⟩
  | ok found =>
    obtain ⟨here, node?⟩ := found
    rw [hwalk] at h
    cases node? with
    | none =>
      cases h
      exact ⟨none, .other hwalk (by simp), rfl⟩
    | some x =>
      dsimp only at h
      by_cases hlong : (Disk.pathOf (top ++ here)).length > Disk.pathLimit
      · rw [if_pos hlong] at h
        cases h
      rw [if_neg hlong] at h
      cases h
      cases x with
      | dir mode es => exact ⟨some here, .dir hwalk, rfl⟩
      | _ => exact ⟨none, .other hwalk (by simp [Node.isDir]), rfl⟩

/-- A build by itself, from the clone to the hash: a path is found and copied into an empty directory,
and the copy is hashed. -/
def build (d : Disk) (checkout : Bytes) (path : String) (workspace : Bytes) :
    Except Failure (Option ArchiveHash) :=
  match subtree? d checkout path with
  | .error f => .error f
  | .ok none => .ok none
  | .ok (some source) =>
    match replicate d source workspace with
    | (_, .error f) => .error f
    | (d, .ok _) => some <$> ofTree d workspace

/-- The tree of a commit lies in a directory, and a workspace is ready beside it. -/
structure Holds (d : Disk) (checkout workspace : Bytes) (tree : Node) : Prop where
  sound : d.root.IsSound
  checkout : ∃ top, top ≠ [] ∧ d.LeadsTo checkout top ∧ d.root.get? top = some tree ∧
    ∃ root mode, d.LeadsTo workspace root ∧ d.root.get? root = some (.dir mode []) ∧
      ¬ root <+: top ∧ ¬ top <+: root

end Workspace

end Depot
