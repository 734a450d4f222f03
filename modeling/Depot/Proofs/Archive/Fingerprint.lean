import Depot.Archive.Fingerprint
import Depot.Proofs.Archive.Stream
import Depot.Proofs.Files.Tree
import Mathlib.Data.List.Basic

/-!
What the archive stream of a tree tells: the places of the tree, the kind of the node at each, the
data of files and whether anybody may run them, and the targets of links. Main statement: two trees
have the same stream exactly if all of this is the same.
-/

namespace Depot.Fingerprint

open Files

/-- What the stream of a tree tells of a node. -/
def mark? : Node → Option Tar.Mark
  | .dir .. => some .directory
  | .file mode data => some (.file (isExecutable mode) data)
  | .link target => some (Tar.linkMark target)
  | .special _ => none

/-- Nothing that a stream tells of differs between the trees, at any place. -/
def SameTree (a b : Node) : Prop :=
  ∀ place, (a.get? place).map mark? = (b.get? place).map mark?

/-- The node at a place of a tree at `root` can be read and archived. -/
def CanArchive (root : Bytes) (place : Place) (node : Node) : Prop :=
  (∀ n ∈ place, Utf8.IsValid n) ∧ (Path.below root place).length ≤ Disk.pathLimit ∧
    match node with
    | .dir .. | .link _ => True
    | .file mode data => mode &&& Disk.ownerRead ≠ 0 ∧ data.length < Tar.sizeLimit
    | .special _ => False

instance (root : Bytes) (place : Place) (node : Node) : Decidable (CanArchive root place node) :=
  match node with
  | .dir .. | .link _ => inferInstanceAs (Decidable (_ ∧ _ ∧ True))
  | .file .. => inferInstanceAs (Decidable (_ ∧ _ ∧ _ ∧ _))
  | .special _ => inferInstanceAs (Decidable (_ ∧ _ ∧ False))

/-- A tree at `root` that can be archived: all names are valid texts, all files can be read and have
less than 8 GiB, there is nothing but directories, files and links, and no path is too long. -/
structure Archivable (root : Bytes) (node : Node) : Prop where
  sound : node.IsSound
  entries : ∀ e ∈ node.beneath, CanArchive root e.1 e.2

theorem length_le_below (root : Bytes) (place : Place) :
    (joinWith [Path.slash] place).length ≤ (Path.below root place).length := by
  simp only [Path.below, Path.join]
  split_ifs
  · exact le_rfl
  · rw [List.length_append]
    omega
  · rw [List.length_append, List.length_cons]
    omega

/-- No file of a tree is larger than files can be. -/
def FilesFit (node : Node) : Prop :=
  ∀ place mode data, node.get? place = some (.file mode data) → data.length < Tar.lengthLimit

theorem of_item_ok {root : Bytes} {place : Place} {node : Node} {i : Tar.Item} (hs : node.IsSound)
    (hplace : ∀ n ∈ place, IsName n)
    (hfit : ∀ mode data, node = .file mode data → data.length < Tar.lengthLimit)
    (h : item root place node = .ok i) :
    i.IsSound ∧ i.name = joinWith [Path.slash] place ∧ some i.mark = mark? node := by
  simp only [item, throw, throwThe, MonadExceptOf.throw, bind, Except.bind, pure, Except.pure] at h
  split_ifs at h with hvalid hlong
  have hlimit : Disk.pathLimit + 1 < Tar.lengthLimit := by decide
  have hname : (0 : UInt8) ∉ joinWith [Path.slash] place ∧
      (joinWith [Path.slash] place).length + 1 < Tar.lengthLimit := by
    refine ⟨fun h0 => ?_, by have := length_le_below root place; omega⟩
    rcases mem_joinWith h0 with h0 | ⟨n, hn, h0⟩
    · revert h0
      decide
    · exact (hplace n hn).2.2.2.2 h0
  cases node with
  | dir mode es =>
    obtain rfl := Except.ok.inj h
    exact ⟨⟨hname, nofun, nofun⟩, rfl, rfl⟩
  | file mode data =>
    cases hread : Disk.contents (.file mode data) with
    | error e =>
      simp only [hread] at h
      cases h
    | ok data' =>
      simp only [hread] at h
      obtain rfl := Except.ok.inj h
      rw [Disk.contents] at hread
      split_ifs at hread
      obtain rfl := Except.ok.inj hread
      refine ⟨⟨hname, fun _ _ _ hi => ?_, nofun⟩, rfl, rfl⟩
      obtain ⟨-, -, rfl⟩ := Tar.Item.file.inj hi
      exact hfit mode data rfl
  | link target =>
    obtain rfl := Except.ok.inj h
    have ht : IsTarget target := Node.isSound_link_iff.mp hs
    refine ⟨⟨hname, nofun, fun _ _ hi => ?_⟩, rfl, rfl⟩
    obtain ⟨-, rfl⟩ := Tar.Item.link.inj hi
    exact ⟨ht.2.1, by have := ht.2.2; omega⟩
  | special kind => cases h

theorem item_of_canArchive {root : Bytes} {place : Place} {node : Node}
    (h : CanArchive root place node) : ∃ i : Tar.Item, item root place node = .ok i := by
  obtain ⟨hnames, hpath, hnode⟩ := h
  have hvalid : (place.any fun n => !decide (Utf8.IsValid n)) = false := by
    simpa using hnames
  have hlong : ¬ (Path.below root place).length > Disk.pathLimit := by omega
  cases node with
  | file mode data =>
    have hread : Disk.contents (.file mode data) = .ok data := by
      rw [Disk.contents, if_neg hnode.1]
    exact ⟨.file (joinWith [Path.slash] place) (isExecutable mode) data,
      by simp [item, hvalid, hlong, hread, pure, Except.pure]⟩
  | dir mode es =>
    exact ⟨.directory (joinWith [Path.slash] place),
      by simp [item, hvalid, hlong, pure, Except.pure]⟩
  | link target =>
    exact ⟨.link (joinWith [Path.slash] place) target,
      by simp [item, hvalid, hlong, pure, Except.pure]⟩
  | special kind => exact hnode.elim

theorem of_mapM_item {root : Bytes} {es : List (Place × Node)} {is : List Tar.Item}
    (hs : ∀ e ∈ es, e.2.IsSound ∧ (∀ n ∈ e.1, IsName n) ∧
      ∀ mode data, e.2 = .file mode data → data.length < Tar.lengthLimit)
    (h : (es.mapM fun e => item root e.1 e.2) = .ok is) :
    (∀ i ∈ is, i.IsSound) ∧ (is.map fun i => (i.name, some i.mark)) =
      es.map fun e => (joinWith [Path.slash] e.1, mark? e.2) := by
  induction es generalizing is with
  | nil =>
    obtain rfl := Except.ok.inj h
    exact ⟨by simp, rfl⟩
  | cons e es ih =>
    obtain ⟨⟨hsound, hplace, hfit⟩, hes⟩ := List.forall_mem_cons.mp hs
    rw [List.mapM_cons] at h
    cases hi : item root e.1 e.2 with
    | error f => simp [hi, bind, Except.bind] at h
    | ok i =>
    cases hrest : es.mapM (fun e => item root e.1 e.2) with
    | error f => simp [hi, hrest, bind, Except.bind] at h
    | ok rest =>
      simp only [hi, hrest, bind, Except.bind, pure, Except.pure] at h
      obtain rfl := Except.ok.inj h
      obtain ⟨hiS, hname, hmark⟩ := of_item_ok hsound hplace hfit hi
      obtain ⟨hisS, htold⟩ := ih hes hrest
      refine ⟨List.forall_mem_cons.mpr ⟨hiS, hisS⟩, ?_⟩
      rw [List.map_cons, List.map_cons, hname, hmark, htold]

theorem mapM_item_of_canArchive {root : Bytes} {es : List (Place × Node)}
    (hs : ∀ e ∈ es, CanArchive root e.1 e.2) :
    ∃ is : List Tar.Item, (es.mapM fun e => item root e.1 e.2) = .ok is :=
  exists_mapM_eq_ok_iff.mpr fun e he => item_of_canArchive (hs e he)

/-- The places of a tree are told by the names of its items. -/
theorem told_eq_of_names {node : Node} (h : node.IsSound) :
    Node.told mark? node = (node.beneath.map fun e => (joinWith [Path.slash] e.1, mark? e.2)).map
      fun t => (splitAtSep Path.slash t.1, t.2) := by
  rw [List.map_map]
  refine List.map_congr_left fun e he => ?_
  obtain ⟨hne, hx⟩ := (Node.mem_beneath_iff h).mp he
  have hsplit : splitAtSep Path.slash (joinWith [Path.slash] e.1) = e.1 :=
    splitAtSep_joinWith hne fun n hn => (h.names hx n hn).2.2.2.1
  simp only [Function.comp_apply, hsplit]

/-- The items of a tree tell its places and marks and nothing else. -/
theorem of_items {root : Bytes} {node : Node} {is : List Tar.Item} (hs : node.IsSound)
    (hfit : FilesFit node) (h : (node.beneath.mapM fun e => item root e.1 e.2) = .ok is) :
    (∀ i ∈ is, i.IsSound) ∧ (is.map fun i => (i.name, some i.mark)) =
      node.beneath.map fun e => (joinWith [Path.slash] e.1, mark? e.2) := by
  refine of_mapM_item (fun e he => ?_) h
  have hx := ((Node.mem_beneath_iff hs).mp he).2
  exact ⟨hs.get? hx, hs.names hx, fun mode data hfile => hfit e.1 mode data (hfile ▸ hx)⟩

/-- The streams of two trees are equal exactly if the trees are the same in all that streams tell
of. -/
theorem sameTree_iff_stream_eq {root₁ root₂ : Bytes} {a b : Node} {is₁ is₂ : List Tar.Item}
    (ha : a.isDir = true) (hb : b.isDir = true) (hsa : a.IsSound) (hsb : b.IsSound)
    (hfa : FilesFit a) (hfb : FilesFit b)
    (h₁ : (a.beneath.mapM fun e => item root₁ e.1 e.2) = .ok is₁)
    (h₂ : (b.beneath.mapM fun e => item root₂ e.1 e.2) = .ok is₂) :
    SameTree a b ↔ Tar.stream is₁ = Tar.stream is₂ := by
  obtain ⟨hs₁, ht₁⟩ := of_items hsa hfa h₁
  obtain ⟨hs₂, ht₂⟩ := of_items hsb hfb h₂
  have hsome (is : List Tar.Item) : (is.map fun i => (i.name, some i.mark)) =
      (Tar.told is).map fun t => (t.1, some t.2) := by
    rw [Tar.told, List.map_map]
    rfl
  rw [Tar.stream_eq_iff hs₁ hs₂]
  constructor
  · intro h
    have htold := Node.told_eq mark? hsa hsb h
    have hnames : (is₁.map fun i => (i.name, some i.mark)) =
        is₂.map fun i => (i.name, some i.mark) := by
      have hjoin (node : Node) : (node.beneath.map fun e => (joinWith [Path.slash] e.1, mark? e.2)) =
          (Node.told mark? node).map fun t => (joinWith [Path.slash] t.1, t.2) := by
        rw [Node.told, List.map_map]
        rfl
      rw [ht₁, ht₂, hjoin, hjoin, htold]
    rw [hsome, hsome] at hnames
    refine List.map_injective_iff.mpr (fun t u htu => ?_) hnames
    obtain ⟨hname, hmark⟩ := Prod.mk.inj htu
    exact Prod.ext hname (Option.some.inj hmark)
  · intro h place
    have htold : Node.told mark? a = Node.told mark? b := by
      rw [told_eq_of_names hsa, told_eq_of_names hsb, ← ht₁, ← ht₂, hsome, hsome, h]
    by_cases hp : place = []
    · subst hp
      cases a <;> cases ha
      cases b <;> cases hb
      rfl
    · exact Node.get?_map_eq_of_told_eq hsa hsb htold hp

theorem Archivable.filesFit {root : Bytes} {node : Node} (h : Archivable root node)
    (hdir : node.isDir = true) : FilesFit node := by
  intro place mode data hx
  have hlimit : Tar.sizeLimit ≤ Tar.lengthLimit := by decide
  have hne : place ≠ [] := by
    rintro rfl
    obtain rfl := Option.some.inj ((Node.get?_nil node).symm.trans hx)
    cases hdir
  have hcan := h.entries (place, .file mode data) ((Node.mem_beneath_iff h.sound).mpr ⟨hne, hx⟩)
  exact Nat.lt_of_lt_of_le hcan.2.2.2 hlimit

theorem items_of_stat {d : Disk} {root : Bytes} {node : Node} (hnode : d.stat root = .ok node) :
    items d root = node.beneath.mapM fun e => item root e.1 e.2 := by
  rw [items, hnode]

theorem ofTree_of_items {d : Disk} {root : Bytes} {is : List Tar.Item} (h : items d root = .ok is) :
    ofTree d root = .ok (ofItems is) := by
  rw [ofTree, h]
  rfl

/-- The streams of two trees, which are what their hashes are taken of, are equal exactly if the
trees are the same in all that streams tell of. -/
theorem stream_eq_iff_sameTree {d₁ d₂ : Disk} {root₁ root₂ : Bytes} {m₁ m₂ : Nat}
    {es₁ es₂ : Entries} (h₁ : d₁.stat root₁ = .ok (.dir m₁ es₁))
    (h₂ : d₂.stat root₂ = .ok (.dir m₂ es₂)) (a₁ : Archivable root₁ (.dir m₁ es₁))
    (a₂ : Archivable root₂ (.dir m₂ es₂)) :
    ∃ is₁ is₂ : List Tar.Item, items d₁ root₁ = .ok is₁ ∧ items d₂ root₂ = .ok is₂ ∧
      ofTree d₁ root₁ = .ok (.ofDigest (Sha256.digest (Tar.stream is₁))) ∧
      ofTree d₂ root₂ = .ok (.ofDigest (Sha256.digest (Tar.stream is₂))) ∧
      (Tar.stream is₁ = Tar.stream is₂ ↔ SameTree (.dir m₁ es₁) (.dir m₂ es₂)) := by
  obtain ⟨is₁, hi₁⟩ := mapM_item_of_canArchive a₁.entries
  obtain ⟨is₂, hi₂⟩ := mapM_item_of_canArchive a₂.entries
  have hitems₁ := (items_of_stat h₁).trans hi₁
  have hitems₂ := (items_of_stat h₂).trans hi₂
  refine ⟨is₁, is₂, hitems₁, hitems₂, ofTree_of_items hitems₁, ofTree_of_items hitems₂, ?_⟩
  exact (sameTree_iff_stream_eq rfl rfl a₁.sound a₂.sound (a₁.filesFit rfl) (a₂.filesFit rfl)
    hi₁ hi₂).symm

def smallTree (mode fileMode : Nat) (target : String) : Node :=
  .dir mode [
    (Utf8.ofString "a", .file fileMode (Utf8.ofString "text")),
    (Utf8.ofString "b", .link (Utf8.ofString target)),
    (List.replicate 120 0x63, .dir mode [])]

theorem archivable_smallTree : Archivable [Path.slash] (smallTree 0o755 0o744 "./x//y") ∧
    Archivable [Path.slash] (smallTree 0o700 0o500 "./x/y") := by
  have hsound (mode fileMode : Nat) (target : String) (ht : IsTarget (Utf8.ofString target)) :
      (smallTree mode fileMode target).IsSound := by
    have hsorted : [Utf8.ofString "a", Utf8.ofString "b", List.replicate 120 0x63].Pairwise
        (· < ·) := by decide +kernel
    have hnames : ∀ n ∈ [Utf8.ofString "a", Utf8.ofString "b", List.replicate 120 0x63],
        IsName n := by decide +kernel
    refine Node.isSound_dir_iff.mpr ⟨⟨(List.pairwise_map (f := Prod.fst)).mp hsorted,
      (List.forall_mem_map (f := Prod.fst)).mp hnames⟩, ?_⟩
    simp only [List.forall_mem_cons, List.not_mem_nil, false_implies, implies_true, and_true]
    exact ⟨Node.isSound_file _ _, Node.isSound_link_iff.mpr ht,
      Node.isSound_dir_iff.mpr ⟨.nil, by simp⟩⟩
  exact ⟨⟨hsound _ _ _ (by decide +kernel), by decide +kernel⟩,
    ⟨hsound _ _ _ (by decide +kernel), by decide +kernel⟩⟩

/-- Modes and the spelling of a short target do not matter. -/
theorem stream_eq_iff_sameTree_small :
    ∃ is₁ is₂ : List Tar.Item,
      items ⟨smallTree 0o755 0o744 "./x//y", []⟩ [Path.slash] = .ok is₁ ∧
      items ⟨smallTree 0o700 0o500 "./x/y", []⟩ [Path.slash] = .ok is₂ ∧
      ofTree ⟨smallTree 0o755 0o744 "./x//y", []⟩ [Path.slash] =
        .ok (.ofDigest (Sha256.digest (Tar.stream is₁))) ∧
      ofTree ⟨smallTree 0o700 0o500 "./x/y", []⟩ [Path.slash] =
        .ok (.ofDigest (Sha256.digest (Tar.stream is₂))) ∧
      (Tar.stream is₁ = Tar.stream is₂ ↔
        SameTree (smallTree 0o755 0o744 "./x//y") (smallTree 0o700 0o500 "./x/y")) :=
  stream_eq_iff_sameTree rfl rfl archivable_smallTree.1 archivable_smallTree.2

end Depot.Fingerprint
