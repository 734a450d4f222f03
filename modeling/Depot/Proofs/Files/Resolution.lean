import Depot.Proofs.Files.Alteration
import Mathlib.Logic.Relation

/-!
The resolution of a path as a chain of small steps between places. Each step looks at the place that
has been reached and at one entry there; what a path leads to is where the steps end.
-/

namespace Depot.Files

theorem hops_ne_nil (path : Bytes) : hops path ≠ [] := by
  simp [hops, splitAtSep_ne_nil]

namespace Trail

theorem descend_append (p q : Place) (t : Trail) :
    descend (p ++ q) t = (descend p t).bind (descend q) := by
  induction p generalizing t with
  | nil => rfl
  | cons n p ih =>
    simp only [List.cons_append, descend]
    cases t.node with
    | dir mode es =>
      dsimp only
      cases hf : Entries.find? n es with
      | none => simp
      | some child => simpa using ih (t.down n child)
    | _ => rfl

theorem node_descend (p : Place) (t : Trail) : (descend p t).map (·.node) = t.node.get? p := by
  induction p generalizing t with
  | nil => simp [descend]
  | cons n p ih =>
    simp only [descend]
    cases t.node with
    | dir mode es =>
      rw [Node.get?_dir_cons]
      dsimp only
      cases hf : Entries.find? n es with
      | none => simp
      | some child => exact ih (t.down n child)
    | _ => rfl

theorem place_descend {p : Place} {t t' : Trail} (h : descend p t = some t') :
    t'.place = t.place ++ p := by
  induction p generalizing t with
  | nil =>
    obtain rfl := Option.some.inj h
    simp
  | cons n p ih =>
    simp only [descend] at h
    cases hn : t.node with
    | dir mode es =>
      rw [hn] at h
      obtain ⟨child, -, h⟩ := Option.bind_eq_some_iff.mp h
      rw [ih h]
      simp [place, down]
    | _ => simp [hn] at h

theorem descend_singleton {n : Name} {t t' : Trail} (h : descend [n] t = some t') :
    ∃ child, t' = t.down n child := by
  simp only [descend] at h
  cases hn : t.node with
  | dir mode es =>
    rw [hn] at h
    obtain ⟨child, -, h⟩ := Option.bind_eq_some_iff.mp h
    exact ⟨child, (Option.some.inj h).symm⟩
  | _ => simp [hn] at h

theorem up_descend {p : Place} {n : Name} {t t' : Trail} (h : descend (p ++ [n]) t = some t') :
    descend p t = some t'.up := by
  rw [descend_append] at h
  obtain ⟨u, hu, h⟩ := Option.bind_eq_some_iff.mp h
  obtain ⟨child, rfl⟩ := descend_singleton h
  exact hu

theorem exists_descend {root x : Node} {p : Place} (h : root.get? p = some x) :
    ∃ t, descend p ⟨root, []⟩ = some t ∧ t.node = x ∧ t.place = p := by
  have hn := node_descend p ⟨root, []⟩
  rw [h] at hn
  obtain ⟨t, ht, hx⟩ := Option.map_eq_some_iff.mp hn
  exact ⟨t, ht, hx, place_descend ht⟩

end Trail

/-- Where hops lead from a place. -/
def walk (root : Node) (follow : Bool) (links : Nat) (place : Place) (hs : List Hop) :
    Except Errno Found :=
  match Trail.descend place ⟨root, []⟩ with
  | some t => travelWithin root follow links t hs
  | none => .error .notFound

section walk

variable {root : Node} {follow : Bool} {links : Nat} {place : Place}

theorem walk_of_none (h : root.get? place = none) (hs : List Hop) :
    walk root follow links place hs = .error .notFound := by
  have hn := Trail.node_descend place ⟨root, []⟩
  rw [h, Option.map_eq_none_iff] at hn
  simp [walk, hn]

theorem walk_nil {x : Node} (h : root.get? place = some x) :
    walk root follow links place [] = .ok ⟨place, some x⟩ := by
  obtain ⟨t, ht, hx, hp⟩ := Trail.exists_descend h
  simp only [walk, ht, travelWithin_nil, hx, hp]

theorem walk_cons_of_not_dir {x : Node} (h : root.get? place = some x) (hx : x.isDir = false)
    (hop : Hop) (hs : List Hop) : walk root follow links place (hop :: hs) = .error .notDirectory := by
  obtain ⟨t, ht, rfl, -⟩ := Trail.exists_descend h
  simp only [walk, ht]
  cases hn : t.node with
  | dir mode es => simp [hn, Node.isDir] at hx
  | _ => cases links <;> simp [travelWithin, travel, hn]

theorem walk_stay (h : root.IsDirAt place) (hs : List Hop) :
    walk root follow links place (.stay :: hs) = walk root follow links place hs := by
  obtain ⟨mode, es, hx⟩ := h
  obtain ⟨t, ht, hx, -⟩ := Trail.exists_descend hx
  simp only [walk, ht]
  cases links <;> simp [travelWithin, travel, hx]

theorem walk_up (h : root.IsDirAt place) (hs : List Hop) :
    walk root follow links place (.up :: hs) = walk root follow links place.dropLast hs := by
  obtain ⟨mode, es, hx⟩ := h
  obtain ⟨t, ht, hx, -⟩ := Trail.exists_descend hx
  have hup : Trail.descend place.dropLast ⟨root, []⟩ = some t.up := by
    rcases List.eq_nil_or_concat place with rfl | ⟨p, n, rfl⟩
    · obtain rfl := Option.some.inj ht
      rfl
    · rw [List.concat_eq_append] at ht
      simpa using Trail.up_descend ht
  simp only [walk, ht, hup]
  cases links <;> simp [travelWithin, travel, hx]

/-- A name is looked up in the directory reached. A link there takes the place of its name. -/
theorem walk_name (h : root.IsDirAt place) (n : Name) (hs : List Hop) :
    walk root follow links place (.name n :: hs) =
      if n.length > 255 then .error .nameTooLong
      else match root.get? (place ++ [n]) with
        | none => if hs = [] then .ok ⟨place ++ [n], none⟩ else .error .notFound
        | some (.link target) =>
          if hs = [] ∧ !follow then .ok ⟨place ++ [n], some (.link target)⟩
          else match links with
            | 0 => .error .tooManyLinks
            | links + 1 =>
              walk root follow links (if Path.isAbsolute target then [] else place)
                (hops target ++ hs)
        | some _ => walk root follow links (place ++ [n]) hs := by
  obtain ⟨mode, es, hx⟩ := h
  obtain ⟨t, ht, htx, hp⟩ := Trail.exists_descend hx
  have hget : root.get? (place ++ [n]) = Entries.find? n es := by
    rw [Node.get?_append, hx]
    simp
  have hdown : ∀ child, Entries.find? n es = some child →
      Trail.descend (place ++ [n]) ⟨root, []⟩ = some (t.down n child) := by
    intro child hc
    rw [Trail.descend_append, ht, Option.bind_some, Trail.descend_cons htx, hc]
    rfl
  have hjump : ∀ target, Trail.descend (if Path.isAbsolute target then [] else place) ⟨root, []⟩ =
      some (if Path.isAbsolute target then ⟨root, []⟩ else t) := by
    intro target
    split_ifs
    · rfl
    · exact ht
  simp only [walk, ht, hget]
  cases hf : Entries.find? n es with
  | none => cases links <;> simp [travelWithin, travel, htx, hf, hp]
  | some child =>
    rw [hdown child hf]
    cases child with
    | link target =>
      simp only [hjump target]
      cases links <;> simp [travelWithin, travel, htx, hf, hp]
    | _ => cases links <;> simp [travelWithin, travel, htx, hf]

end walk

/-- A path on its way: the links that may still be followed, the place reached, and what is left. -/
structure Way where
  links : Nat
  place : Place
  hops : List Hop

namespace Way

/-- One step on a way that goes on. -/
inductive Step (root : Node) : Way → Way → Prop
  | stay {links : Nat} {place : Place} {hs : List Hop} (h : root.IsDirAt place) :
    Step root ⟨links, place, .stay :: hs⟩ ⟨links, place, hs⟩
  | up {links : Nat} {place : Place} {hs : List Hop} (h : root.IsDirAt place) :
    Step root ⟨links, place, .up :: hs⟩ ⟨links, place.dropLast, hs⟩
  | down {links : Nat} {place : Place} {hs : List Hop} {n : Name} {child : Node}
    (hn : n.length ≤ 255) (h : root.get? (place ++ [n]) = some child)
    (hlink : ∀ target, child ≠ .link target) :
    Step root ⟨links, place, .name n :: hs⟩ ⟨links, place ++ [n], hs⟩
  | jump {links : Nat} {place : Place} {hs : List Hop} {n : Name} {target : Bytes}
    (hn : n.length ≤ 255) (h : root.get? (place ++ [n]) = some (.link target)) :
    Step root ⟨links + 1, place, .name n :: hs⟩
      ⟨links, if Path.isAbsolute target then [] else place, Files.hops target ++ hs⟩

abbrev Steps (root : Node) : Way → Way → Prop := Relation.ReflTransGen (Step root)

/-- More hops after those of a way. -/
def append (w : Way) (more : List Hop) : Way := { w with hops := w.hops ++ more }

variable {root : Node} {w w' : Way}

theorem Step.append (h : Step root w w') (more : List Hop) :
    Step root (w.append more) (w'.append more) := by
  cases h with
  | stay h => exact .stay h
  | up h => exact .up h
  | down hn h hlink => exact .down hn h hlink
  | jump hn h =>
    simp only [Way.append, List.cons_append, List.append_assoc]
    exact .jump hn h

theorem Steps.append (h : Steps root w w') (more : List Hop) :
    Steps root (w.append more) (w'.append more) := by
  induction h with
  | refl => exact .refl
  | tail _ hstep ih => exact ih.tail (hstep.append more)

theorem Step.links_le (h : Step root w w') : w'.links ≤ w.links := by
  cases h <;> simp

theorem Step.hops_ne_nil (h : Step root w w') : w.hops ≠ [] := by
  cases h <;> simp

/-- What hops lead to does not change on the way, unless the last of them is a link that is not
followed. -/
theorem Step.walk_eq (h : Step root w w') {follow : Bool} (hf : follow = true ∨ 2 ≤ w.hops.length) :
    walk root follow w.links w.place w.hops = walk root follow w'.links w'.place w'.hops := by
  cases h with
  | stay h => exact walk_stay h _
  | up h => exact walk_up h _
  | @down links place hs n child hn h hlink =>
    rw [walk_name (.of_append (by simp) h), if_neg (by omega), h]
    cases child with
    | link target => exact absurd rfl (hlink target)
    | _ => rfl
  | @jump links place hs n target hn h =>
    rw [walk_name (.of_append (by simp) h), if_neg (by omega), h]
    have hgo : ¬ (hs = [] ∧ !follow) := by
      rintro ⟨rfl, hnf⟩
      rcases hf with rfl | hf
      · simp at hnf
      · simp at hf
    simp only [if_neg hgo]

theorem Steps.walk_append (h : Steps root w w') {more : List Hop} (hmore : more ≠ [])
    (follow : Bool) :
    walk root follow w.links w.place (w.hops ++ more) =
      walk root follow w'.links w'.place (w'.hops ++ more) := by
  induction h with
  | refl => rfl
  | @tail v u _ hvu ih =>
    refine ih.trans ((hvu.append more).walk_eq (.inr ?_))
    have h1 := List.length_pos_iff.mpr hvu.hops_ne_nil
    have h2 := List.length_pos_iff.mpr hmore
    simp only [Way.append, List.length_append]
    omega

theorem Steps.walk_eq (h : Steps root w w') :
    walk root true w.links w.place w.hops = walk root true w'.links w'.place w'.hops := by
  induction h with
  | refl => rfl
  | tail _ hvu ih => exact ih.trans (hvu.walk_eq (.inl rfl))

/-- After a step there is no link: it has been followed. -/
theorem Step.ne_link (h : Step root w w') (target : Bytes) :
    root.get? w'.place ≠ some (.link target) := by
  have hdir : ∀ {place : Place}, root.IsDirAt place → root.get? place ≠ some (.link target) := by
    rintro place ⟨mode, es, hx⟩
    simp [hx]
  cases h with
  | stay h => exact hdir h
  | up h => exact hdir (h.of_prefix (List.dropLast_prefix _))
  | down hn h hlink => simpa [h] using hlink target
  | jump hn h =>
    have hplace := Node.IsDirAt.of_append (by simp) h
    dsimp only
    split_ifs
    · exact hdir (hplace.of_prefix List.nil_prefix)
    · exact hdir hplace

end Way

/-- How a walk ends that has not failed: at a place that it has reached, or at a name that leads to
nothing or to a link that is not followed. -/
inductive Ends (root : Node) (follow : Bool) (w : Way) (found : Found) : Prop
  | reached (links : Nat) (h : Way.Steps root w ⟨links, found.place, []⟩)
    (hnode : found.node = root.get? found.place) (hsome : found.node.isSome)
  | lastName (links : Nat) (place : Place) (n : Name)
    (h : Way.Steps root w ⟨links, place, [.name n]⟩) (hdir : root.IsDirAt place)
    (hn : n.length ≤ 255) (hplace : found.place = place ++ [n])
    (hnode : found.node = root.get? found.place)
    (hlast : found.node = none ∨ follow = false ∧ ∃ target, found.node = some (.link target))

/-- What a walk finds that follows links has been reached. -/
theorem Ends.steps {root : Node} {w : Way} {place : Place} {x : Node}
    (h : Ends root true w ⟨place, some x⟩) : ∃ links, Way.Steps root w ⟨links, place, []⟩ := by
  cases h with
  | reached links h => exact ⟨links, h⟩
  | lastName _ _ _ _ _ _ _ _ hlast =>
    rcases hlast with hnone | ⟨hfalse, -⟩
    · cases hnone
    · cases hfalse

theorem Ends.of_step {root : Node} {follow : Bool} {w w' : Way} {found : Found}
    (h : Way.Step root w w') (he : Ends root follow w' found) : Ends root follow w found := by
  cases he with
  | reached links hs hnode hsome => exact .reached links (.head h hs) hnode hsome
  | lastName links place n hs hdir hn hplace hnode hlast =>
    exact .lastName links place n (.head h hs) hdir hn hplace hnode hlast

theorem ends_of_walk_ok {root : Node} {follow : Bool} {links : Nat} {place : Place} {hs : List Hop}
    {found : Found} {x : Node} (hx : root.get? place = some x)
    (h : walk root follow links place hs = .ok found) :
    Ends root follow ⟨links, place, hs⟩ found := by
  induction links using Nat.strongRecOn generalizing place hs x with
  | ind links ihlinks =>
  induction hs generalizing place x with
  | nil =>
    rw [walk_nil hx] at h
    obtain rfl := Except.ok.inj h
    exact .reached links .refl hx.symm rfl
  | cons hop hs ih =>
    by_cases hdir : x.isDir = false
    · rw [walk_cons_of_not_dir hx hdir] at h
      cases h
    · have hd : root.IsDirAt place := by
        cases x with
        | dir mode es => exact ⟨mode, es, hx⟩
        | _ => simp [Node.isDir] at hdir
      cases hop with
      | stay =>
        rw [walk_stay hd] at h
        exact (ih hx h).of_step (.stay hd)
      | up =>
        rw [walk_up hd] at h
        obtain ⟨m, es, hup⟩ := hd.of_prefix (List.dropLast_prefix place)
        exact (ih hup h).of_step (.up hd)
      | name n =>
        rw [walk_name hd] at h
        by_cases hn : n.length > 255
        · rw [if_pos hn] at h
          cases h
        rw [if_neg hn] at h
        cases hc : root.get? (place ++ [n]) with
        | none =>
          simp only [hc] at h
          by_cases hlast : hs = []
          · rw [if_pos hlast] at h
            obtain rfl := Except.ok.inj h
            subst hlast
            exact .lastName links place n .refl hd (by omega) rfl hc.symm (.inl rfl)
          · rw [if_neg hlast] at h
            cases h
        | some child =>
          simp only [hc] at h
          cases child with
          | link target =>
            simp only at h
            by_cases hlast : hs = [] ∧ !follow
            · rw [if_pos hlast] at h
              obtain rfl := Except.ok.inj h
              obtain ⟨rfl, hfollow⟩ := hlast
              exact .lastName links place n .refl hd (by omega) rfl hc.symm
                (.inr ⟨by simpa using hfollow, target, rfl⟩)
            · rw [if_neg hlast] at h
              cases links with
              | zero => cases h
              | succ links =>
                have hstart : ∃ y, root.get? (if Path.isAbsolute target then [] else place) =
                    some y := by
                  split_ifs
                  · exact ⟨root, Node.get?_nil root⟩
                  · exact ⟨x, hx⟩
                obtain ⟨y, hy⟩ := hstart
                exact (ihlinks links (by omega) hy h).of_step (.jump (by omega) hc)
          | _ => exact (ih hc h).of_step (.down (by omega) hc (by simp))

theorem Ends.get? {root : Node} {follow : Bool} {w : Way} {found : Found}
    (h : Ends root follow w found) : found.node = root.get? found.place := by
  cases h with
  | reached _ _ hnode => exact hnode
  | lastName _ _ _ _ _ _ _ hnode => exact hnode

namespace Disk

def startPlace (d : Disk) (path : Bytes) : Place := if Path.isAbsolute path then [] else d.cwd

theorem travel_start (d : Disk) (follow : Bool) (path : Bytes) (hs : List Hop) :
    (do travelWithin d.root follow linkLimit (← d.start path) hs) =
      walk d.root follow linkLimit (d.startPlace path) hs := by
  rw [start, startPlace, walk]
  split_ifs
  · rfl
  · cases Trail.descend d.cwd ⟨d.root, []⟩ <;> rfl

theorem go_eq {d : Disk} {path : Bytes} (hne : path ≠ []) (hnul : (0 : UInt8) ∉ path)
    (follow : Bool) :
    d.go follow path = walk d.root follow linkLimit (d.startPlace path) (hops path) := by
  rw [go, if_neg hne, if_neg hnul, travel_start]

theorem ends_of_go_ok {d : Disk} {follow : Bool} {path : Bytes} {found : Found}
    (h : d.go follow path = .ok found) :
    path ≠ [] ∧ (0 : UInt8) ∉ path ∧
      Ends d.root follow ⟨linkLimit, d.startPlace path, hops path⟩ found := by
  have hne : path ≠ [] := by
    rintro rfl
    simp [go] at h
  have hnul : (0 : UInt8) ∉ path := by
    intro h0
    simp [go, hne, h0] at h
  rw [go_eq hne hnul] at h
  cases hx : d.root.get? (d.startPlace path) with
  | none =>
    rw [walk_of_none hx] at h
    cases h
  | some x => exact ⟨hne, hnul, ends_of_walk_ok hx h⟩

theorem go_of_find_ok {d : Disk} {follow : Bool} {path : Bytes} {found : Found}
    (h : d.find follow path = .ok found) : d.go follow path = .ok found := by
  rw [find] at h
  split_ifs at h
  exact h

/-- A walk that follows links does not end at one. -/
theorem ne_link_of_ends {root : Node} {w : Way} {found : Found} (h : Ends root true w found)
    (hw : w.hops ≠ []) (target : Bytes) : found.node ≠ some (.link target) := by
  cases h with
  | reached links h hnode =>
    rcases Relation.ReflTransGen.cases_tail h with rfl | ⟨v, -, hstep⟩
    · exact absurd rfl hw
    · rw [hnode]
      exact hstep.ne_link target
  | lastName _ _ _ _ _ _ _ _ hlast =>
    rcases hlast with hnone | ⟨hfalse, -⟩
    · simp [hnone]
    · exact absurd hfalse (by simp)

theorem locate_eq_ok_iff {d : Disk} {path : Bytes} {here : Place} {x : Node} :
    d.locate path = .ok (here, x) ↔
      path.length ≤ pathLimit ∧ d.go true path = .ok ⟨here, some x⟩ := by
  rw [locate, find]
  constructor
  · intro h
    split_ifs at h with hlong
    · cases h
    cases hgo : d.go true path with
    | error e =>
      rw [hgo] at h
      cases h
    | ok found =>
      obtain ⟨place, node⟩ := found
      rw [hgo] at h
      cases node with
      | none => cases h
      | some y =>
        cases h
        exact ⟨by_contra fun hlimit => hlong ⟨by omega, (ends_of_go_ok hgo).2.1⟩, rfl⟩
  · rintro ⟨hlimit, hgo⟩
    rw [if_neg fun hlong => by omega, hgo]
    rfl

theorem go_of_locate_ok {d : Disk} {path : Bytes} {place : Place} {x : Node}
    (h : d.locate path = .ok (place, x)) : d.go true path = .ok ⟨place, some x⟩ :=
  (locate_eq_ok_iff.mp h).2

theorem get?_of_go {d : Disk} {follow : Bool} {path : Bytes} {found : Found}
    (h : d.go follow path = .ok found) : d.root.get? found.place = found.node :=
  (ends_of_go_ok h).2.2.get?.symm

theorem get?_of_locate_ok {d : Disk} {path : Bytes} {place : Place} {x : Node}
    (h : d.locate path = .ok (place, x)) : d.root.get? place = some x :=
  get?_of_go (go_of_locate_ok h)

section locate

variable {d : Disk} {path : Bytes} {place : Place} {x : Node} (h : d.locate path = .ok (place, x))
include h

theorem find_of_locate : d.find true path = .ok ⟨place, some x⟩ := by
  obtain ⟨hlimit, hgo⟩ := locate_eq_ok_iff.mp h
  unfold find
  rw [if_neg (by omega), hgo]

theorem stat_of_locate : d.stat path = .ok x := by
  unfold stat
  rw [h]
  rfl

theorem doesExist_of_locate : d.doesExist path = true := by
  unfold doesExist
  rw [stat_of_locate h]
  rfl

end locate

theorem readLink_eq_ok_iff {d : Disk} {path target : Bytes} :
    d.readLink path = .ok target ↔
      path.length ≤ pathLimit ∧ ∃ place, d.go false path = .ok ⟨place, some (.link target)⟩ := by
  rw [readLink, lstat, find]
  constructor
  · intro h
    split_ifs at h with hlong
    · cases h
    cases hgo : d.go false path with
    | error e =>
      rw [hgo] at h
      cases h
    | ok found =>
      obtain ⟨place, node⟩ := found
      have hnul := (ends_of_go_ok hgo).2.1
      refine ⟨by_contra fun hlimit => hlong ⟨by omega, hnul⟩, place, ?_⟩
      rw [hgo] at h
      cases node with
      | none => cases h
      | some x =>
        cases x with
        | link said => rw [Except.ok.inj h]
        | _ => cases h
  · rintro ⟨hlimit, place, hgo⟩
    rw [if_neg fun hlong => by omega, hgo]
    rfl

theorem of_readLink_ok {d : Disk} {path target : Bytes} (h : d.readLink path = .ok target) :
    ∃ place, d.go false path = .ok ⟨place, some (.link target)⟩ ∧
      d.root.get? place = some (.link target) := by
  obtain ⟨-, place, hgo⟩ := readLink_eq_ok_iff.mp h
  exact ⟨place, hgo, (ends_of_go_ok hgo).2.2.get?.symm⟩

theorem resolve_eq_ok_iff {d : Disk} {path : Bytes} {here : Place} {x : Node} :
    d.resolve path = .ok (here, x) ↔
      (pathOf here).length ≤ pathLimit ∧ d.go true path = .ok ⟨here, some x⟩ := by
  rw [resolve]
  constructor
  · intro h
    cases hgo : d.go true path with
    | error e =>
      rw [hgo] at h
      cases h
    | ok found =>
      obtain ⟨place, node⟩ := found
      rw [hgo] at h
      cases node with
      | none => cases h
      | some y =>
        simp only [bind, Except.bind, Found.existing] at h
        split_ifs at h with hlong
        cases h
        exact ⟨Nat.not_lt.mp hlong, rfl⟩
  · rintro ⟨hlimit, hgo⟩
    rw [hgo]
    simp only [bind, Except.bind, Found.existing]
    rw [if_neg (by omega)]
    rfl

theorem go_of_resolve_ok {d : Disk} {path : Bytes} {here : Place} {x : Node}
    (h : d.resolve path = .ok (here, x)) : d.go true path = .ok ⟨here, some x⟩ :=
  (resolve_eq_ok_iff.mp h).2

theorem of_resolve_ok {d : Disk} {path : Bytes} {place : Place} {x : Node}
    (h : d.resolve path = .ok (place, x)) :
    d.root.get? place = some x ∧ ∀ target, x ≠ .link target := by
  obtain ⟨-, -, hends⟩ := ends_of_go_ok (go_of_resolve_ok h)
  have hlink := ne_link_of_ends hends (hops_ne_nil path)
  exact ⟨hends.get?.symm, fun target hx => hlink target (congrArg some hx)⟩

end Disk

end Depot.Files
