import Depot.Proofs.Files.Tree

/-! Whether two trees are the same, and whether a tree is sound, can be decided. -/

namespace Depot.Files

instance (es : Entries) : Decidable (Entries.IsSound es) :=
  decidable_of_iff ((es.Pairwise fun a b => a.1 < b.1) ∧ ∀ e ∈ es, IsName e.1)
    ⟨fun h => ⟨h.1, h.2⟩, fun h => ⟨h.sorted, h.names⟩⟩

namespace Node

mutual

def same : Node → Node → Bool
  | file mode data, file mode' data' => mode = mode' && data = data'
  | link target, link target' => target = target'
  | special kind, special kind' => kind = kind'
  | dir mode es, dir mode' es' => mode = mode' && sameEntries es es'
  | _, _ => false

def sameEntries : Entries → Entries → Bool
  | [], [] => true
  | (n, x) :: es, (n', y) :: es' => n = n' && same x y && sameEntries es es'
  | _, _ => false

end

theorem same_iff (a b : Node) : same a b = true ↔ a = b := by
  refine Node.induction (p := fun a => ∀ b, same a b = true ↔ a = b)
    (q := fun es => ∀ es', sameEntries es es' = true ↔ es = es') ?file ?link ?special ?dir ?nil ?cons
    a b
  case file => intro mode data b; cases b <;> simp [same]
  case link => intro target b; cases b <;> simp [same]
  case special => intro kind b; cases b <;> simp [same]
  case dir => intro mode es ih b; cases b <;> simp [same, ih]
  case nil => intro es'; cases es' <;> simp [sameEntries]
  case cons =>
    intro n node rest ihnode ihrest es'
    cases es' <;> simp [sameEntries, ihnode, ihrest, Prod.ext_iff, and_assoc]

instance : DecidableEq Node := fun a b => decidable_of_iff (same a b = true) (same_iff a b)

mutual

def passes : Node → Bool
  | file .. | special _ => true
  | link target => decide (IsTarget target)
  | dir _ es => decide (Entries.IsSound es) && allPass es

def allPass : Entries → Bool
  | [] => true
  | (_, x) :: es => passes x && allPass es

end

theorem passes_iff (node : Node) : passes node = true ↔ node.IsSound := by
  refine Node.induction (p := fun node => passes node = true ↔ node.IsSound)
    (q := fun es => allPass es = true ↔ ∀ e ∈ es, e.2.IsSound) ?file ?link ?special ?dir ?nil ?cons
    node
  case file => intro mode data; simp [passes, isSound_file]
  case link => intro target; simp [passes, isSound_link_iff]
  case special => intro kind; simp [passes, isSound_special]
  case dir => intro mode es ih; simp [passes, ih, isSound_dir_iff]
  case nil => simp [allPass]
  case cons => intro n node rest ihnode ihrest; simp [allPass, ihnode, ihrest]

instance (node : Node) : Decidable node.IsSound := decidable_of_iff _ (passes_iff node)

end Node

deriving instance DecidableEq for Disk

end Depot.Files
