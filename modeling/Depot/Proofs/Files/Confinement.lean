import Depot.Proofs.Files.Leading

/-!
Ways inside a directory. As long as a way does not climb above the directory it is the same as in the
tree of the directory alone, where the directory is the root.
-/

namespace Depot.Files

namespace Way

/-- A way of the tree at `place`, seen from above. -/
def under (place : Place) (w : Way) : Way := { w with place := place ++ w.place }

/-- The next step goes up from the root. -/
def Climbs (w : Way) : Prop := w.place = [] ∧ w.hops.head? = some .up

/-- However far it goes, a way never climbs above the root. -/
def IsKept (tree : Node) (w : Way) : Prop := ∀ w', Steps tree w w' → ¬ w'.Climbs

/-- However far it goes, a way visits no place outside a directory. -/
def StaysBelow (root : Node) (top : Place) (w : Way) : Prop :=
  ∀ w', Steps root w w' → top <+: w'.place

end Way

/-- All links of a tree are relative. -/
def Node.IsRelative (tree : Node) : Prop :=
  ∀ place target, tree.get? place = some (.link target) → Path.isAbsolute target = false

namespace Way

variable {root tree : Node} {top : Place} {w w' v : Way}

section

variable (htop : root.get? top = some tree)

include htop

theorem get?_under (place : Place) : root.get? (top ++ place) = tree.get? place := by
  rw [Node.get?_append, htop, Option.bind_some]

theorem isDirAt_under (place : Place) : root.IsDirAt (top ++ place) ↔ tree.IsDirAt place := by
  simp only [Node.IsDirAt, get?_under htop]

/-- A step of the tree that does not climb is a step of the whole. -/
theorem Step.under (hrel : tree.IsRelative) (h : Step tree w w') (hw : ¬ w.Climbs) :
    Step root (w.under top) (w'.under top) := by
  cases h with
  | stay h => exact .stay ((isDirAt_under htop _).mpr h)
  | @up links place hs h =>
    have hne : place ≠ [] := fun hnil => hw ⟨hnil, rfl⟩
    simp only [Way.under]
    rw [← List.dropLast_append_of_ne_nil hne]
    exact .up ((isDirAt_under htop _).mpr h)
  | down hn h hlink =>
    simp only [Way.under]
    rw [← List.append_assoc]
    exact .down hn (by rw [List.append_assoc, get?_under htop, h]) hlink
  | @jump links place hs n target hn h =>
    have hget : root.get? (top ++ place ++ [n]) = some (.link target) := by
      rw [List.append_assoc, get?_under htop, h]
    have hjump : Step root ⟨links + 1, top ++ place, .name n :: hs⟩ _ := .jump hn hget
    rw [if_neg (by simp [hrel _ _ h])] at hjump
    rw [if_neg (by simp [hrel _ _ h])]
    exact hjump

/-- A step of the whole below a directory is a step of its tree, unless it climbs. -/
theorem Step.of_under (hrel : tree.IsRelative) (h : Step root (w.under top) v) (hw : ¬ w.Climbs) :
    ∃ w', Step tree w w' ∧ v = w'.under top := by
  obtain ⟨links, place, hs⟩ := w
  simp only [Way.under] at h
  generalize hplace : top ++ place = here at h
  cases h with
  | @stay links _ hs h =>
    subst hplace
    exact ⟨⟨links, place, hs⟩, .stay ((isDirAt_under htop _).mp h), rfl⟩
  | @up links _ hs h =>
    subst hplace
    have hne : place ≠ [] := fun hnil => hw ⟨hnil, rfl⟩
    refine ⟨⟨links, place.dropLast, hs⟩, .up ((isDirAt_under htop _).mp h), ?_⟩
    simp only [Way.under, List.dropLast_append_of_ne_nil hne]
  | @down links _ hs n child hn h hlink =>
    subst hplace
    rw [List.append_assoc, get?_under htop] at h
    refine ⟨⟨links, place ++ [n], hs⟩, .down hn h hlink, ?_⟩
    simp only [Way.under, List.append_assoc]
  | @jump links _ hs n target hn h =>
    subst hplace
    rw [List.append_assoc, get?_under htop] at h
    have hjump : Step tree ⟨links + 1, place, .name n :: hs⟩ _ := .jump hn h
    rw [if_neg (by simp [hrel _ _ h])] at hjump
    rw [if_neg (by simp [hrel _ _ h])]
    exact ⟨_, hjump, rfl⟩

/-- A way of the tree either is one of the whole too, or has climbed before. -/
theorem Steps.under (hrel : tree.IsRelative) (h : Steps tree w w') :
    Steps root (w.under top) (w'.under top) ∨
      ∃ v : Way, Steps root (w.under top) (v.under top) ∧ v.Climbs := by
  induction h with
  | refl => exact .inl .refl
  | @tail u u' _ hstep ih =>
    rcases ih with ih | ih
    · by_cases hu : u.Climbs
      · exact .inr ⟨u, ih, hu⟩
      · exact .inl (ih.tail (hstep.under htop hrel hu))
    · exact .inr ih

/-- A way of the whole stays below the directory as long as that of the tree does not climb. -/
theorem Steps.of_under (hrel : tree.IsRelative) (hw : w.IsKept tree)
    (h : Steps root (w.under top) v) : ∃ w', Steps tree w w' ∧ v = w'.under top := by
  induction h with
  | refl => exact ⟨w, .refl, rfl⟩
  | @tail u u' _ hstep ih =>
    obtain ⟨w', hw', rfl⟩ := ih
    obtain ⟨w'', hstep', rfl⟩ := hstep.of_under htop hrel (hw w' hw')
    exact ⟨w'', hw'.tail hstep', rfl⟩

/-- The places that a way visits lie below a directory just if the way never climbs above it in the
tree of the directory alone. -/
theorem staysBelow_iff (hrel : tree.IsRelative) (hdir : tree.IsDirAt []) :
    (w.under top).StaysBelow root top ↔ top = [] ∨ w.IsKept tree := by
  constructor
  · intro h
    by_contra hnot
    obtain ⟨htop', hclimb⟩ := not_or.mp hnot
    simp only [IsKept] at hclimb
    push Not at hclimb
    obtain ⟨w', hw', hclimb⟩ := hclimb
    obtain ⟨u, hu, hplace, hhops⟩ : ∃ u : Way, Steps root (w.under top) (u.under top) ∧ u.Climbs := by
      rcases hw'.under htop hrel with hu | hu
      · exact ⟨w', hu, hclimb⟩
      · exact hu
    obtain ⟨hs, hhs⟩ := List.head?_eq_some_iff.mp hhops
    have hstep : Step root (u.under top) ⟨u.links, (top ++ u.place).dropLast, hs⟩ := by
      rw [Way.under, hhs, hplace]
      exact .up ((isDirAt_under htop []).mpr hdir)
    have hout := (h _ (hu.tail hstep)).length_le
    rw [hplace, List.append_nil, List.length_dropLast] at hout
    have hpos := List.length_pos_iff.mpr htop'
    omega
  · rintro (rfl | hw) v hv
    · exact List.nil_prefix
    · obtain ⟨w', -, rfl⟩ := Steps.of_under htop hrel hw hv
      exact List.prefix_append _ _

end

end Way

end Depot.Files
