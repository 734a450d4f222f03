import Depot.Proofs.Archive.Boundary
import Depot.Proofs.Archive.Fingerprint
import Depot.Proofs.Files.Enclosure
import Depot.Proofs.Files.Modes

/-!
What a copy leaves. Whatever its tree holds, it makes only directories, files that can be read, and
links that are safe where they are, all with paths that are not too long; and each of them is already
as one more copy would make it. A tree of such nodes can be archived exactly if its names are texts and
its paths are not too long.
-/

namespace Depot.Files

namespace Node

/-- A node as a copy makes it anew, without what it holds. -/
def kept : Node → Node
  | dir .. => dir 0o755 []
  | file mode data => copied mode data
  | node => node

@[simp] theorem kept_face (node : Node) : node.face.kept = node.kept := by cases node <;> rfl

theorem kept_kept (node : Node) : node.kept.kept = node.kept := by
  cases node with
  | file mode data =>
    by_cases hdata : data = []
    · simp [kept, copied, hdata]
    · simp [kept, copied, hdata, Disk.modeAfterWrite_idem]
  | _ => rfl

end Node

end Depot.Files

namespace Depot.Archive

open Files

/-! ### Settled nodes -/

/-- A node that a copy takes over at its place: nothing special, and no link that is unsafe there. -/
def IsPlain (place : Place) : Node → Prop
  | .link target => SafeLink.isSafe place target = true
  | .special _ => False
  | _ => True

/-- A node that can be read, if it is a file. -/
def IsReadable : Node → Prop
  | .file mode _ => mode &&& Disk.ownerRead ≠ 0
  | _ => True

/-- A node that a copy of it does not differ from. -/
structure IsSettled (place : Place) (node : Node) : Prop where
  plain : IsPlain place node
  readable : IsReadable node
  kept : node.kept = node.face

theorem isPlain_face {place : Place} {node : Node} : IsPlain place node.face ↔ IsPlain place node := by
  cases node <;> rfl

theorem isReadable_face {node : Node} : IsReadable node.face ↔ IsReadable node := by
  cases node <;> rfl

theorem isReadable_kept {node : Node} : IsReadable node.kept ↔ IsReadable node := by
  cases node with
  | file mode data =>
    by_cases hdata : data = []
    · simp [Node.kept, Node.copied, IsReadable, hdata]
    · simp [Node.kept, Node.copied, IsReadable, hdata, Disk.modeAfterWrite_and, Disk.ownerRead]
  | _ => rfl

namespace IsSettled

variable {place : Place} {node other : Node}

theorem of_face_eq (h : IsSettled place node) (hface : other.face = node.face) :
    IsSettled place other where
  plain := isPlain_face.mp (hface ▸ isPlain_face.mpr h.plain)
  readable := isReadable_face.mp (hface ▸ isReadable_face.mpr h.readable)
  kept := by rw [← Node.kept_face, hface, Node.kept_face, h.kept]

theorem of_kept (hplain : IsPlain place node) (hreadable : IsReadable node) :
    IsSettled place node.kept where
  plain := by cases node <;> exact hplain
  readable := isReadable_kept.mpr hreadable
  kept := by
    rw [Node.kept_kept]
    cases node <;> rfl

end IsSettled

theorem Provides.isSettled {d : Disk} {source : Bytes} {task : Task} {node : Node}
    {more : List Task} (h : Provides d source task (some node) more) :
    IsSettled task.target node ∧ node.children = [] := by
  cases h with
  | kept htask ht hsafe =>
    subst htask
    exact ⟨⟨hsafe, trivial, rfl⟩, rfl⟩
  | @filled here mode data h hdata =>
    have hread : IsReadable (.file mode data) := by
      rw [Disk.contents] at hdata
      split_ifs at hdata with hmode
      exact hmode
    have hplain : IsPlain task.target (.file mode data) := trivial
    exact ⟨.of_kept hplain hread, rfl⟩
  | opened h => exact ⟨⟨trivial, trivial, rfl⟩, rfl⟩

/-- After an empty node was put, it is at its place, and all else is as before. -/
theorem Underway.get?_put_cases {top place : Place} {dest : Bytes} {d : Disk} {task : Task}
    {rest : List Task} {node x : Node} (hu : Underway top dest d (task :: rest))
    (hempty : node.children = [])
    (hx : (d.put (top ++ task.target) node).root.get? (top ++ place) = some x) :
    place = task.target ∧ x = node ∨
      ∃ y, d.root.get? (top ++ place) = some y ∧ x.face = y.face := by
  by_cases hp : top ++ task.target <+: top ++ place
  · obtain ⟨below, rfl⟩ := (List.prefix_append_right_inj _).mp hp
    rw [← List.append_assoc, hu.get?_put] at hx
    cases below with
    | nil =>
      rw [Node.get?_nil] at hx
      exact .inl ⟨List.append_nil _, (Option.some.inj hx).symm⟩
    | cons n below =>
      rw [Node.get?_cons, hempty] at hx
      cases hx
  · have hlook := hu.look_put node hp
    rw [Node.look, hx, Node.look, Option.map_some] at hlook
    obtain ⟨y, hy, hface⟩ := Option.map_eq_some_iff.mp hlook.symm
    exact .inr ⟨y, hy, hface.symm⟩

/-- All that was made below a directory is settled, and its path is short. -/
def Settles (d : Disk) (top : Place) (dest : Bytes) : Prop :=
  ∀ place node, place ≠ [] → d.root.get? (top ++ place) = some node →
    IsSettled place node ∧ Disk.IsShort (Path.below dest place) place

namespace Settles

variable {top : Place} {route : Route} {d d' : Disk} {tasks tasks' : List Task}

theorem of_empty {mode : Nat} (h : d.root.get? top = some (.dir mode [])) (dest : Bytes) :
    Settles d top dest := by
  intro place node hne hx
  obtain ⟨n, rest, rfl⟩ := List.exists_cons_of_ne_nil hne
  rw [Node.get?_append, h] at hx
  cases hx

/-- Nothing else than what a task makes comes to be below the directory. -/
theorem take {c c' : Copying} {task : Task} {more rest : List Task}
    (hu : Underway top route.dest c.disk (task :: rest)) (h : Settles c.disk top route.dest)
    (htake : c.take route task = (c', .ok more)) : Settles c'.disk top route.dest := by
  have hr := hu.ready task List.mem_cons_self
  obtain ⟨node?, hprovides, hshort, rfl⟩ := (Copying.take_eq_ok_iff hu.sound hu.leads hr).mp htake
  cases node? with
  | none => exact h
  | some node =>
    obtain ⟨hsettled, hempty⟩ := hprovides.isSettled
    intro place x hne hx
    rcases hu.get?_put_cases hempty hx with ⟨rfl, rfl⟩ | ⟨y, hy, hface⟩
    · exact ⟨hsettled, Task.isShort_below (hshort _ rfl)⟩
    · obtain ⟨hold, hfits⟩ := h place y hne hy
      exact ⟨hold.of_face_eq hface, hfits⟩

theorem copies (hu : Underway top route.dest d tasks) (h : Settles d top route.dest)
    (hc : Copies route (d, tasks) (d', tasks')) : Settles d' top route.dest := by
  generalize hs : (d, tasks) = s at hc
  generalize hs' : (d', tasks') = s' at hc
  induction hc generalizing d' tasks' with
  | refl =>
    obtain ⟨rfl, rfl⟩ := Prod.mk.inj (hs.trans hs'.symm)
    exact h
  | @tail s₁ s₂ hfirst hstep ih =>
    subst hs
    cases hstep with
    | @take c c' task more rest htake =>
      obtain ⟨rfl, rfl⟩ := Prod.mk.inj hs'
      exact (ih rfl).take (hu.copies hfirst).1 htake

end Settles

/-- What a copy into an empty directory has made in it. -/
theorem exists_made {d d' : Disk} {source dest : Bytes} {stats : Stats} {top : Place} {mode : Nat}
    (hs : d.root.IsSound) (hdest : d.locate dest = .ok (top, .dir mode []))
    (h : replicate d source dest = (d', .ok stats)) :
    d'.root.IsSound ∧ ∃ made, d'.locate dest = .ok (top, .dir mode made) ∧ Settles d' top dest := by
  obtain ⟨ts, hts, hc⟩ := copies_of_replicate h
  have hget := Disk.get?_of_locate_ok hdest
  have hu : Underway top dest d ts := .of_tasks hs (Disk.leadsTo_of_locate hdest) hget hts
  have hu' := (hu.copies hc).1
  have hlook := hu.look_copies (.inl rfl) hc
  rw [Node.look, Node.look, hget, Option.map_some] at hlook
  obtain ⟨made, hmade⟩ := (Node.look_eq_dir_iff.mp hlook).2
  refine ⟨hu'.sound, made, ?_, Settles.copies hu (.of_empty hget dest) hc⟩
  exact Disk.locate_eq_ok_iff.mpr ⟨(Disk.locate_eq_ok_iff.mp hdest).1, hu'.leads.go hmade⟩

end Depot.Archive

namespace Depot.Fingerprint

open Files Archive

/-! ### Hashes of settled trees -/

/-- No path below `root` is too long. -/
def Fits (root : Bytes) (es : Entries) : Prop :=
  ∀ e ∈ Node.beneathAll es, (Path.below root e.1).length ≤ Disk.pathLimit

instance (root : Bytes) (es : Entries) : Decidable (Fits root es) :=
  inferInstanceAs (Decidable (∀ e ∈ Node.beneathAll es, _))

/-- With valid names and short paths, plain nodes that can be read become items. -/
theorem exists_item_iff {root : Bytes} {place : Place} {node : Node} (hplain : IsPlain place node)
    (hread : IsReadable node) : (∃ i, item root place node = .ok i) ↔
      (∀ n ∈ place, Utf8.IsValid n) ∧ (Path.below root place).length ≤ Disk.pathLimit := by
  simp only [item, throw, throwThe, MonadExceptOf.throw, bind, Except.bind, pure, Except.pure]
  by_cases hvalid : ∀ n ∈ place, Utf8.IsValid n
  · rw [if_neg (by simpa using hvalid)]
    by_cases hlong : (Path.below root place).length > Disk.pathLimit
    · rw [if_pos hlong]
      exact ⟨fun h => by simp at h, fun h => absurd h.2 (by omega)⟩
    · rw [if_neg hlong]
      refine ⟨fun _ => ⟨hvalid, by omega⟩, fun _ => ?_⟩
      cases node with
      | special => exact hplain.elim
      | file mode data =>
        have hdata : Disk.contents (.file mode data) = .ok data := by
          rw [Disk.contents, if_neg hread]
        rw [hdata]
        exact ⟨_, rfl⟩
      | _ => exact ⟨_, rfl⟩
  · rw [if_pos (by simpa using hvalid)]
    exact ⟨fun h => by simp at h, fun h => absurd h.1 hvalid⟩

theorem item_eq_of_short {root root' : Bytes} {place : Place} {node : Node}
    (hplain : IsPlain place node) (hread : IsReadable node)
    (h : (Path.below root place).length ≤ Disk.pathLimit)
    (h' : (Path.below root' place).length ≤ Disk.pathLimit) :
    item root place node = item root' place node := by
  simp only [item, throw, throwThe, MonadExceptOf.throw, bind, Except.bind, pure, Except.pure]
  have hnot : ¬ (Path.below root place).length > Disk.pathLimit := by omega
  have hnot' : ¬ (Path.below root' place).length > Disk.pathLimit := by omega
  rw [if_neg hnot, if_neg hnot']
  cases node with
  | special => exact hplain.elim
  | file mode data =>
    have hdata : Disk.contents (.file mode data) = .ok data := by rw [Disk.contents, if_neg hread]
    rw [hdata]
  | _ => rfl

/-- What a copy changes of a node is not archived. -/
theorem item_kept (root : Bytes) (place : Place) (node : Node) :
    item root place node.kept = item root place node := by
  cases node with
  | file mode data =>
    by_cases hdata : data = []
    · rw [Node.kept, Node.copied, if_pos hdata]
    · have hread : Disk.modeAfterWrite mode &&& Disk.ownerRead = mode &&& Disk.ownerRead :=
        Disk.modeAfterWrite_and (by decide) mode
      have hrun : isExecutable (Disk.modeAfterWrite mode) = isExecutable mode := by
        rw [isExecutable, Disk.modeAfterWrite_and (by decide), isExecutable]
      rw [Node.kept, Node.copied, if_neg hdata]
      simp only [item, Disk.contents, hread, hrun]
  | _ => rfl

section
variable {d d' : Disk} {root root' : Bytes} {node node' : Node}
  (hnode : d.stat root = .ok node) (h : ∀ e ∈ node.beneath, IsPlain e.1 e.2 ∧ IsReadable e.2)
include hnode h

/-- A plain tree that can be read has a hash exactly if its names are texts and no path is too
long. -/
theorem exists_ofTree_iff : (∃ hash, ofTree d root = .ok hash) ↔
    (∀ e ∈ node.beneath, ∀ n ∈ e.1, Utf8.IsValid n) ∧
      ∀ e ∈ node.beneath, (Path.below root e.1).length ≤ Disk.pathLimit := by
  have hitems : (∃ hash, ofTree d root = .ok hash) ↔
      ∃ is, (node.beneath.mapM fun e => item root e.1 e.2) = .ok is := by
    rw [ofTree, items, hnode]
    dsimp only
    cases node.beneath.mapM fun e => item root e.1 e.2 <;> simp [Functor.map, Except.map]
  rw [hitems, exists_mapM_eq_ok_iff, ← forall₂_and]
  exact forall₂_congr fun e he => exists_item_iff (h e he).1 (h e he).2

theorem ofTree_eq_of_told (hnode' : d'.stat root' = .ok node')
    (htold : Node.told Node.kept node' = Node.told Node.kept node)
    (hshort : ∀ e ∈ node.beneath, (Path.below root e.1).length ≤ Disk.pathLimit)
    (hshort' : ∀ e ∈ node.beneath, (Path.below root' e.1).length ≤ Disk.pathLimit) :
    ofTree d' root' = ofTree d root := by
  have hmapM : ∀ (root : Bytes) (x : Node), (x.beneath.mapM fun e => item root e.1 e.2) =
      (Node.told Node.kept x).mapM fun t => item root t.1 t.2 := by
    intro root x
    rw [Node.told, List.mapM_map]
    exact mapM_congr fun e _ => (item_kept root e.1 e.2).symm
  have hitems : items d' root' = items d root := by
    rw [items, items, hnode, hnode']
    dsimp only
    rw [hmapM, htold, ← hmapM]
    exact mapM_congr fun e he =>
      (item_eq_of_short (h e he).1 (h e he).2 (hshort e he) (hshort' e he)).symm
  rw [ofTree, ofTree, hitems]

end

end Depot.Fingerprint
