import Depot.Proofs.Files.Confinement
import Depot.Proofs.Files.Tracing

/-!
Ways that stay in a tree, wherever the tree is. Such a way neither goes up from the root of the tree
nor meets an absolute link, and it comes to the same in every file system that holds the tree.
-/

namespace Depot.Files

/-- What is found in the tree at `top`, seen from above. -/
def Found.under (top : Place) (found : Found) : Found := { found with place := top ++ found.place }

namespace Way

/-- The next step leaves the tree: it goes up from the root, or follows an absolute link. -/
def Leaves (tree : Node) (w : Way) : Prop :=
  w.Climbs ∨ ∃ n hs target, w.hops = .name n :: hs ∧
    tree.get? (w.place ++ [n]) = some (.link target) ∧ Path.isAbsolute target = true

/-- However far it goes, a way never leaves the tree. -/
def IsInside (tree : Node) (w : Way) : Prop := ∀ v, Steps tree w v → ¬ v.Leaves tree

variable {root tree : Node} {top place : Place} {w w' : Way}

theorem IsInside.step (h : w.IsInside tree) (hstep : Step tree w w') : w'.IsInside tree :=
  fun v hv => h v (.head hstep hv)

theorem not_leaves_up {links : Nat} {hs : List Hop} (h : place ≠ []) :
    ¬ (⟨links, place, .up :: hs⟩ : Way).Leaves tree := by
  rintro (⟨hnil, -⟩ | ⟨n, hs', target, hhops, -⟩)
  · exact h hnil
  · cases hhops

theorem not_leaves_name {links : Nat} {n : Name} {hs : List Hop}
    (h : ∀ target, tree.get? (place ++ [n]) = some (.link target) → Path.isAbsolute target = false) :
    ¬ (⟨links, place, .name n :: hs⟩ : Way).Leaves tree := by
  rintro (⟨-, hup⟩ | ⟨m, hs', target, hhops, ht, habs⟩)
  · cases hup
  · cases hhops
    rw [h target ht] at habs
    cases habs

theorem isInside_nil {links : Nat} : (⟨links, place, []⟩ : Way).IsInside tree := by
  intro v hv
  rw [hv.eq_of_nil]
  rintro (⟨-, hup⟩ | ⟨n, hs, target, hhops, -⟩)
  · cases hup
  · cases hhops

/-- What the next step leads to decides the rest. -/
theorem IsInside.head (h : ¬ w.Leaves tree) (hstep : Step tree w w') (h' : w'.IsInside tree) :
    w.IsInside tree := by
  intro v hv
  rcases hv.eq_or hstep with rfl | hrest
  · exact h
  · exact h' v hrest

/-- Names that lead straight down never leave a tree. -/
theorem isInside_names {names : Place} {links : Nat} {x : Node}
    (hx : tree.get? (place ++ names) = some x) (hlink : ∀ target, x ≠ .link target) :
    (⟨links, place, names.map .name⟩ : Way).IsInside tree := by
  induction names generalizing place with
  | nil => exact isInside_nil
  | cons n names ih =>
    rw [List.append_cons] at hx
    have hnot : ∀ target, tree.get? (place ++ [n]) ≠ some (.link target) := by
      intro target ht
      rw [Node.get?_append, ht, Option.bind_some] at hx
      cases names with
      | nil => exact hlink target (by simpa using hx.symm)
      | cons m names => cases hx
    intro v hv
    rcases Relation.ReflTransGen.cases_head hv with rfl | ⟨u, hstep, hrest⟩
    · exact not_leaves_name fun target ht => absurd ht (hnot target)
    · cases hstep with
      | down hn hget hnolink => exact ih hx v hrest
      | jump hn hget => exact absurd hget (hnot _)

/-- Where there are no links, a way that does not go up stays in the tree. -/
theorem isInside_of_up_notMem (hlinks : ∀ place target, tree.get? place ≠ some (.link target))
    (hup : .up ∉ w.hops) : w.IsInside tree := by
  have hkeep : ∀ v, Steps tree w v → .up ∉ v.hops := by
    intro v hv
    induction hv with
    | refl => exact hup
    | tail _ hstep ih =>
      cases hstep with
      | stay => exact fun h => ih (List.mem_cons_of_mem _ h)
      | up => exact absurd List.mem_cons_self ih
      | down => exact fun h => ih (List.mem_cons_of_mem _ h)
      | jump _ hlink => exact absurd hlink (hlinks _ _)
  rintro v hv (⟨-, hhead⟩ | ⟨n, hs, target, -, hlink, -⟩)
  · exact hkeep v hv (List.mem_of_head? hhead)
  · exact hlinks _ _ hlink

end Way

/-- A way that never leaves a tree comes to the same in the tree alone and in a larger one. -/
theorem walk_under {root tree : Node} {top : Place} (follow : Bool) (htop : root.get? top = some tree)
    {links : Nat} {place : Place} {hs : List Hop} (h : (⟨links, place, hs⟩ : Way).IsInside tree) :
    walk root follow links (top ++ place) hs =
      (walk tree follow links place hs).map (Found.under top) := by
  induction links using Nat.strongRecOn generalizing place hs with
  | ind links ihlinks =>
  induction hs generalizing place with
  | nil =>
    cases hx : tree.get? place with
    | none => rw [walk_of_none hx, walk_of_none ((Way.get?_under htop place).trans hx)]; rfl
    | some x => rw [walk_nil hx, walk_nil ((Way.get?_under htop place).trans hx)]; rfl
  | cons hop hs ih =>
    cases hx : tree.get? place with
    | none => rw [walk_of_none hx, walk_of_none ((Way.get?_under htop place).trans hx)]; rfl
    | some x =>
    by_cases hdir : x.isDir = false
    · rw [walk_cons_of_not_dir hx hdir,
        walk_cons_of_not_dir ((Way.get?_under htop place).trans hx) hdir]
      rfl
    have hd : tree.IsDirAt place := .of_isDir hx (by simpa using hdir)
    have hd' : root.IsDirAt (top ++ place) := (Way.isDirAt_under htop place).mpr hd
    cases hop with
    | stay =>
      rw [walk_stay hd, walk_stay hd']
      exact ih (h.step (.stay hd))
    | up =>
      have hne : place ≠ [] := fun hnil => h _ .refl (.inl ⟨hnil, rfl⟩)
      rw [walk_up hd, walk_up hd', List.dropLast_append_of_ne_nil hne]
      exact ih (h.step (.up hd))
    | name n =>
      have hget : root.get? (top ++ place ++ [n]) = tree.get? (place ++ [n]) := by
        rw [List.append_assoc, Way.get?_under htop]
      rw [walk_name hd, walk_name hd', hget]
      by_cases hn : n.length > 255
      · rw [if_pos hn, if_pos hn]
        rfl
      rw [if_neg hn, if_neg hn]
      cases hc : tree.get? (place ++ [n]) with
      | none =>
        dsimp only
        by_cases hlast : hs = []
        · rw [if_pos hlast, if_pos hlast, List.append_assoc]
          rfl
        · rw [if_neg hlast, if_neg hlast]
          rfl
      | some child =>
        cases child with
        | link target =>
          have hrel : Path.isAbsolute target = false := by
            by_contra habs
            exact h _ .refl (.inr ⟨n, hs, target, rfl, hc, by simpa using habs⟩)
          dsimp only
          by_cases hend : hs = [] ∧ !follow
          · rw [if_pos hend, if_pos hend, List.append_assoc]
            rfl
          rw [if_neg hend, if_neg hend]
          cases links with
          | zero => rfl
          | succ links =>
            have hjump := h.step (.jump (by omega) hc)
            simp only [hrel, Bool.false_eq_true, if_false] at hjump ⊢
            exact ihlinks links (by omega) hjump
        | _ =>
          dsimp only
          rw [List.append_assoc]
          exact ih (h.step (.down (by omega) hc (by simp)))

theorem joinWith_append {α : Type} (sep : List α) {xs ys : List (List α)} (hx : xs ≠ [])
    (hy : ys ≠ []) : joinWith sep (xs ++ ys) = joinWith sep xs ++ sep ++ joinWith sep ys := by
  induction xs with
  | nil => exact absurd rfl hx
  | cons x xs ih =>
    cases xs with
    | nil =>
      obtain ⟨y, ys, rfl⟩ := List.exists_cons_of_ne_nil hy
      rfl
    | cons x' xs =>
      simp only [List.cons_append, joinWith_cons_cons]
      rw [← List.cons_append, ih (by simp)]
      simp only [List.append_assoc]

namespace Disk

theorem pathOf_append {place names : Place} (hplace : place ≠ []) (hne : names ≠ []) :
    pathOf (place ++ names) = pathOf place ++ Path.slash :: joinWith [Path.slash] names := by
  rw [pathOf, joinWith_append _ hplace hne, pathOf]
  simp

theorem getLast?_pathOf {place : Place} (hne : place ≠ []) (h : ∀ n ∈ place, IsName n) :
    (pathOf place).getLast? ≠ some Path.slash := by
  rcases List.eq_nil_or_concat place with rfl | ⟨init, n, rfl⟩
  · exact absurd rfl hne
  rw [List.concat_eq_append] at h ⊢
  obtain ⟨hn, -, -, hslash, -⟩ := h n (by simp)
  obtain ⟨front, hfront⟩ : ∃ front, pathOf (init ++ [n]) = front ++ n := by
    by_cases hinit : init = []
    · exact ⟨[Path.slash], by rw [hinit]; rfl⟩
    · exact ⟨pathOf init ++ [Path.slash], by rw [pathOf_append hinit (by simp)]; simp [joinWith]⟩
  rw [hfront, List.getLast?_append, List.getLast?_eq_some_getLast hn, Option.some_or]
  intro hlast
  exact hslash (Option.some.inj hlast ▸ List.getLast_mem hn)

theorem below_pathOf {place names : Place} (hplace : ∀ n ∈ place, IsName n) (hne : names ≠ [])
    (hnames : ∀ n ∈ names, IsName n) : Path.below (pathOf place) names = pathOf (place ++ names) := by
  rw [Path.below, Path.join, if_neg (by simp [isAbsolute_joinWith hnames])]
  by_cases hnil : place = []
  · subst hnil
    rfl
  · have hlast := getLast?_pathOf hnil hplace
    rw [if_neg (not_or.mpr ⟨by simp [pathOf], hlast⟩), pathOf_append hnil hne]

theorem hops_pathOf {place : Place} (hne : place ≠ []) (h : ∀ n ∈ place, IsName n) :
    hops (pathOf place) = .stay :: place.map .name := by
  rw [pathOf, hops_slash, hops_joinWith hne h]

theorem startPlace_pathOf (d : Disk) (place : Place) : d.startPlace (pathOf place) = [] := rfl

variable {d : Disk} {tree : Node} {top : Place}

/-- A path after the path of a directory goes down to the directory first. -/
theorem go_join_names (hne : top ≠ []) (hnames : ∀ n ∈ top, IsName n) (hdir : d.root.IsDirAt top)
    {path : Bytes} (hrel : Path.isAbsolute path = false) (hnul : (0 : UInt8) ∉ path)
    (follow : Bool) : d.go follow (Path.join (pathOf top) path) =
      walk d.root follow linkLimit [] (top.map .name ++ hops path) := by
  have hspells := spells_pathOf hne hnames
  have hjoin : Path.join (pathOf top) path = pathOf top ++ Path.slash :: path := by
    rw [Path.join, if_neg (by simp [hrel]),
      if_neg (not_or.mpr ⟨hspells.ne_nil, getLast?_pathOf hne hnames⟩)]
  rw [go_eq (join_ne_nil hspells.ne_nil) (nul_notMem_join hspells.nul hnul), hjoin,
    hops_append_slash, hops_pathOf hne hnames, List.cons_append]
  exact walk_stay (hdir.of_prefix List.nil_prefix) _

/-- Nothing is found below a place with a name that is too long. -/
theorem go_join_of_long (hne : top ≠ []) (hnames : ∀ n ∈ top, IsName n) (hdir : d.root.IsDirAt top)
    (hlong : ¬ ∀ n ∈ top, n.length ≤ 255) {path : Bytes} (hrel : Path.isAbsolute path = false)
    (hnul : (0 : UInt8) ∉ path) (follow : Bool) :
    d.go follow (Path.join (pathOf top) path) = .error .nameTooLong := by
  rw [go_join_names hne hnames hdir hrel hnul]
  exact walk_names_of_long hlong hdir ..

/-- A tree that can be got to: there are only directories on the way to it, and none of their names
is too long. -/
structure Bears (d : Disk) (top : Place) (tree : Node) : Prop where
  ne_nil : top ≠ []
  names : ∀ n ∈ top, IsName n
  short : ∀ n ∈ top, n.length ≤ 255
  holds : d.root.get? top = some tree
  dir : tree.isDir = true

namespace Bears

theorem isDirAt (h : d.Bears top tree) : d.root.IsDirAt top := .of_isDir h.holds (by simp [h.dir])

theorem go_pathOf (h : d.Bears top tree) {names : Place} (hnames : ∀ n ∈ names, IsName n)
    (follow : Bool) : d.go follow (pathOf (top ++ names)) =
      walk d.root follow linkLimit top (names.map .name) := by
  have hall : ∀ n ∈ top ++ names, IsName n := by
    simpa [or_imp, forall_and] using ⟨h.names, hnames⟩
  have hne : top ++ names ≠ [] := by simp [h.ne_nil]
  have hspells := spells_pathOf hne hall
  rw [go_eq hspells.ne_nil hspells.nul, hops_pathOf hne hall, startPlace_pathOf,
    walk_stay (h.isDirAt.of_prefix List.nil_prefix), List.map_append]
  exact walk_names h.short h.isDirAt ..

theorem go_join (h : d.Bears top tree) {path : Bytes} (hrel : Path.isAbsolute path = false)
    (hnul : (0 : UInt8) ∉ path) (follow : Bool) : d.go follow (Path.join (pathOf top) path) =
      walk d.root follow linkLimit top (hops path) := by
  rw [go_join_names h.ne_nil h.names h.isDirAt hrel hnul]
  exact walk_names h.short h.isDirAt ..

/-- As long as it does not leave the tree, a path leads to what it leads to in the tree alone. -/
theorem go_under (h : d.Bears top tree) (follow : Bool) {names : Place}
    (hnames : ∀ n ∈ names, IsName n) (hin : (⟨linkLimit, [], names.map .name⟩ : Way).IsInside tree) :
    d.go follow (pathOf (top ++ names)) =
      (walk tree follow linkLimit [] (names.map .name)).map (Found.under top) := by
  have hunder := walk_under follow h.holds hin
  rw [List.append_nil] at hunder
  rw [h.go_pathOf hnames, hunder]

end Bears

end Disk

end Depot.Files
