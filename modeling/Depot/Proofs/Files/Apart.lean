import Depot.Proofs.Files.Enclosure
import Depot.Proofs.Files.Making
import Depot.Proofs.Files.Tracing

/-!
What stays the same while something changes elsewhere. Paths that keep away from a directory lead to
the same nodes whatever is in it, and a directory is listed alike as long as its entries keep their
kinds.
-/

namespace Depot.Files

theorem Node.kind_face (node : Node) : node.face.kind = node.kind := by cases node <;> rfl

/-- Two trees that look the same off a directory have entries of the same kinds there. -/
theorem Node.SameOff.kind_eq {a b : Node} {top here : Place} (h : a.SameOff top b)
    (ha : a.IsDirAt top) (hb : b.IsDirAt top) (hhere : ¬ top <+: here) (n : Name) :
    (a.get? (here ++ [n])).map Node.kind = (b.get? (here ++ [n])).map Node.kind := by
  by_cases hp : top <+: here ++ [n]
  · obtain ⟨mode, es, hx⟩ := ha
    obtain ⟨mode', es', hx'⟩ := hb
    obtain rfl := (List.prefix_concat_iff.mp hp).resolve_right hhere
    rw [hx, hx']
    rfl
  · have hface := congrArg (Option.map Node.kind) (h _ hp)
    simpa only [Node.look, Option.map_map, Function.comp_def, Node.kind_face] using hface

namespace Disk

def way (d : Disk) (path : Bytes) : Way := ⟨linkLimit, d.startPlace path, hops path⟩

variable {d d₁ : Disk} {path full : Bytes} {top here names base : Place} {n : Name}

theorem steps_of_go {x : Node} (h : d.go true path = .ok ⟨here, some x⟩) :
    ∃ links, Way.Steps d.root (d.way path) ⟨links, here, []⟩ := (ends_of_go_ok h).2.2.steps

/-- A path that keeps away from a directory leads to the same whatever is in the directory. -/
theorem go_of_avoids {x : Node} (hcwd : d₁.cwd = d.cwd) (hsame : d.root.SameOff top d₁.root)
    (htop : d₁.root.IsDirAt top) (hoff : Way.Avoids d₁.root top (d₁.way path))
    (h : d₁.go true path = .ok ⟨here, some x⟩) :
    ¬ top <+: here ∧ ∃ y, d.root.get? here = some y ∧ y.face = x.face ∧
      d.go true path = .ok ⟨here, some y⟩ := by
  obtain ⟨links, hsteps⟩ := steps_of_go h
  have hhere : ¬ top <+: here := hoff _ hsteps
  obtain ⟨hne, hnul, hends⟩ := ends_of_go_ok h
  have hlook : (d.root.get? here).map Node.face = (d₁.root.get? here).map Node.face :=
    hsame here hhere
  rw [← hends.get?] at hlook
  obtain ⟨y, hy, hface⟩ := Option.map_eq_some_iff.mp hlook
  refine ⟨hhere, y, hy, hface, ?_⟩
  have hframe := hsteps.frame hsame.symm htop hoff
  rw [way, startPlace, hcwd] at hframe
  rw [go_eq hne hnul, startPlace, hframe.walk_eq]
  exact walk_nil hy

/-- A path leads to a directory, unless it holds names that are too long. -/
structure Opens (d : Disk) (path : Bytes) (here : Place) : Prop where
  ne_nil : path ≠ []
  nul : (0 : UInt8) ∉ path
  walks : ∀ follow more found, more ≠ [] →
    walk d.root follow linkLimit (d.startPlace path) (hops path ++ more) = .ok found →
      ∃ links, walk d.root follow links here more = .ok found

theorem opens_of_go {x : Node} (h : d.go true path = .ok ⟨here, some x⟩) : d.Opens path here := by
  obtain ⟨links, hsteps⟩ := steps_of_go h
  obtain ⟨hne, hnul, -⟩ := ends_of_go_ok h
  refine ⟨hne, hnul, fun follow more found hmore hwalk => ⟨links, ?_⟩⟩
  have happ := hsteps.walk_append hmore follow
  rw [way] at happ
  exact happ.symm.trans hwalk

theorem walk_of_names {follow : Bool} {links : Nat} {more : List Hop} {found : Found}
    (hdir : d.root.IsDirAt (base ++ names))
    (h : walk d.root follow links base (names.map .name ++ more) = .ok found) :
    walk d.root follow links (base ++ names) more = .ok found := by
  by_cases hlen : ∀ n ∈ names, n.length ≤ 255
  · rwa [walk_names hlen hdir] at h
  · rw [walk_names_of_long hlen hdir] at h
    cases h

theorem opens_pathOf (hdir : d.root.IsDirAt here) (hnames : ∀ n ∈ here, IsName n) :
    d.Opens (pathOf here) here := by
  have hroot : d.root.IsDirAt [] := hdir.of_prefix List.nil_prefix
  by_cases hne : here = []
  · subst hne
    obtain ⟨hpath, hnul, -, links, hwalks⟩ := d.leadsTo_root hroot
    refine ⟨hpath, hnul, fun follow more found hmore hwalk => ⟨links, ?_⟩⟩
    exact (hwalks d.root .refl hroot follow more (.inr hmore)).symm.trans hwalk
  · have hspells := spells_pathOf hne hnames
    refine ⟨hspells.ne_nil, hspells.nul, fun follow more found hmore hwalk => ⟨linkLimit, ?_⟩⟩
    have hhops : hops (pathOf here) = .stay :: here.map .name := by
      rw [pathOf, hops_slash, hops_joinWith hne hnames]
    have hstart : d.startPlace (pathOf here) = [] := by
      rw [startPlace, hspells.absolute]
      rfl
    rw [hhops, hstart, List.cons_append, walk_stay hroot] at hwalk
    have hhere : d.root.IsDirAt ([] ++ here) := hdir
    exact walk_of_names hhere hwalk

namespace Opens

/-- What a path leads to whose last name is an entry of a directory. -/
theorem walk_last {follow : Bool} {found : Found} (h : d.Opens path base)
    (hdir : d.root.IsDirAt (base ++ names)) (hfull : Spells path (names ++ [n]) full)
    (hgo : d.go follow full = .ok found) :
    ∃ links, walk d.root follow links (base ++ names) [.name n] = .ok found := by
  rw [go_eq hfull.ne_nil hfull.nul, startPlace, hfull.absolute, ← hfull.hops.walk_eq,
    List.map_append] at hgo
  obtain ⟨links, hwalk⟩ := h.walks follow _ _ (by simp) hgo
  exact ⟨links, walk_of_names hdir hwalk⟩

theorem leads {x : Node} (h : d.Opens path base) (hdir : d.root.IsDirAt (base ++ names))
    (hfull : Spells path (names ++ [n]) full) (hgo : d.go true full = .ok ⟨here, some x⟩) :
    Leads d.root (base ++ names) [n] here := by
  obtain ⟨links, hlast⟩ := h.walk_last hdir hfull hgo
  obtain ⟨mode, es, hx⟩ := hdir
  obtain ⟨last, hsteps⟩ := (ends_of_walk_ok hx hlast).steps
  exact ⟨links, last, hsteps⟩

theorem place_eq {found : Found} (h : d.Opens path base) (hdir : d.root.IsDirAt (base ++ names))
    (hfull : Spells path (names ++ [n]) full) (hgo : d.go false full = .ok found) :
    found.place = base ++ names ++ [n] := by
  obtain ⟨links, hlast⟩ := h.walk_last hdir hfull hgo
  rw [walk_name hdir] at hlast
  by_cases hn : n.length > 255
  · rw [if_pos hn] at hlast
    cases hlast
  rw [if_neg hn] at hlast
  cases hx : d.root.get? (base ++ names ++ [n]) with
  | none =>
    simp only [hx, if_true] at hlast
    cases hlast
    rfl
  | some x =>
    cases x with
    | link target =>
      simp only [hx] at hlast
      cases hlast
      rfl
    | _ =>
      simp only [hx, walk_nil hx] at hlast
      cases hlast
      rfl

end Opens

/-- A path that keeps away from a directory goes on leading where it leads. -/
theorem opens_of_avoids {x : Node} (hcwd : d₁.cwd = d.cwd) (hsame : d.root.SameOff top d₁.root)
    (htop : d.root.IsDirAt top) (hoff : Way.Avoids d.root top (d.way path))
    (h : d.go true path = .ok ⟨here, some x⟩) : d₁.Opens path here := by
  obtain ⟨-, y, -, -, hgo⟩ := go_of_avoids hcwd.symm hsame.symm htop hoff h
  exact opens_of_go hgo

end Disk

namespace Entries

/-- A node that stands for all of its kind. -/
private def stamp (node : Node) : Node :=
  match node.kind with
  | .directory => .dir 0 []
  | .file => .file 0 []
  | .link => .link []
  | .special => .special .fifo

private theorem kind_stamp (node : Node) : (stamp node).kind = node.kind := by
  cases node <;> rfl

/-- Two directories are listed alike if each name stands for nodes of one kind in both. -/
theorem IsSound.listing_eq {es es' : Entries} (h : IsSound es) (h' : IsSound es')
    (hkind : ∀ n, (find? n es).map Node.kind = (find? n es').map Node.kind) :
    (es.map fun e => (e.1, e.2.kind)) = es'.map fun e => (e.1, e.2.kind) := by
  have hsound : ∀ {es : Entries}, IsSound es → IsSound (es.map fun e => (e.1, stamp e.2)) :=
    fun h => h.of_names (by rw [List.map_map]; rfl)
  have hstamp : (es.map fun e => (e.1, stamp e.2)) = es'.map fun e => (e.1, stamp e.2) := by
    refine (hsound h).eq_of_find?_eq (hsound h') fun n => ?_
    rw [find?_map_snd, find?_map_snd]
    have hn := hkind n
    cases hx : find? n es <;> cases hx' : find? n es' <;> rw [hx, hx'] at hn <;>
      simp_all [stamp]
  have hback := congrArg (List.map fun e : Name × Node => (e.1, e.2.kind)) hstamp
  simpa only [List.map_map, Function.comp_def, kind_stamp] using hback

end Entries

/-- Names that lead straight down stay out of a directory that they do not lead to. -/
theorem Way.avoids_names {root x : Node} {top place names : Place} {links : Nat}
    (hx : root.get? (place ++ names) = some x) (hlink : ∀ target, x ≠ .link target)
    (hoff : ¬ top <+: place ++ names) : Avoids root top ⟨links, place, names.map .name⟩ := by
  induction names generalizing place with
  | nil => exact .of_nil (by simpa using hoff)
  | cons n names ih =>
    have hhere : ¬ top <+: place := fun hp => hoff (hp.trans (List.prefix_append _ _))
    rw [List.append_cons] at hx hoff
    obtain ⟨child, hchild⟩ : ∃ child, root.get? (place ++ [n]) = some child := by
      rw [Node.get?_append] at hx
      exact (Option.bind_eq_some_iff.mp hx).imp fun _ h => h.1
    have hnot : ∀ target, child ≠ .link target := by
      rintro target rfl
      rw [Node.get?_append, hchild, Option.bind_some] at hx
      cases names with
      | nil => exact hlink target (Option.some.inj hx).symm
      | cons m names => cases hx
    intro v hv
    rcases Relation.ReflTransGen.cases_head hv with rfl | ⟨u, hstep, hrest⟩
    · exact hhere
    · cases hstep with
      | down hn hget hnolink => exact ih hx hoff v hrest
      | jump hn hget => exact absurd (Option.some.inj (hchild.symm.trans hget)) (hnot _)

namespace Disk

variable {d d₁ : Disk} {path : Bytes} {top here : Place} {x : Node}

theorem avoids_pathOf (hs : d.root.IsSound) (hx : d.root.get? here = some x)
    (hlink : ∀ target, x ≠ .link target) (hoff : ¬ top <+: here) :
    Way.Avoids d.root top (d.way (pathOf here)) := by
  have hroot : ¬ top <+: [] := fun hp => hoff (hp.trans List.nil_prefix)
  by_cases hne : here = []
  · subst hne
    have hstay : ∀ v, Way.Steps d.root (d.way (pathOf [])) v → v.place = [] := by
      intro v hv
      have hkeep : v.place = [] ∧ ∀ hop ∈ v.hops, hop = .stay := by
        induction hv with
        | refl =>
          refine ⟨rfl, ?_⟩
          show ∀ hop ∈ hops (pathOf []), hop = .stay
          decide
        | tail _ hstep ih =>
          cases hstep with
          | stay => exact ⟨ih.1, fun hop h => ih.2 hop (List.mem_cons_of_mem _ h)⟩
          | up => exact absurd (ih.2 _ List.mem_cons_self) nofun
          | down => exact absurd (ih.2 _ List.mem_cons_self) nofun
          | jump => exact absurd (ih.2 _ List.mem_cons_self) nofun
      exact hkeep.1
    exact fun v hv => hstay v hv ▸ hroot
  · have hdir : d.root.IsDirAt [] := by
      obtain ⟨n, rest, rfl⟩ := List.exists_cons_of_ne_nil hne
      exact .of_append (by simp) (show d.root.get? ([] ++ (n :: rest)) = some x from hx)
    have hway : d.way (pathOf here) = ⟨linkLimit, [], .stay :: here.map .name⟩ := by
      rw [way, hops_pathOf hne (hs.names hx), startPlace_pathOf]
    rw [hway]
    exact .head hroot (.stay hdir) (Way.avoids_names hx hlink hoff)

section
variable (hcwd : d₁.cwd = d.cwd) (hsame : d.root.SameOff top d₁.root) (htop : d₁.root.IsDirAt top)
  (hoff : Way.Avoids d₁.root top (d₁.way path))
include hcwd hsame htop hoff

theorem locate_of_avoids (h : d₁.locate path = .ok (here, x)) :
    ¬ top <+: here ∧ ∃ y, y.face = x.face ∧ d.locate path = .ok (here, y) := by
  obtain ⟨hlimit, hgo⟩ := locate_eq_ok_iff.mp h
  obtain ⟨hhere, y, -, hface, hgo⟩ := go_of_avoids hcwd hsame htop hoff hgo
  exact ⟨hhere, y, hface, locate_eq_ok_iff.mpr ⟨hlimit, hgo⟩⟩

theorem resolve_of_avoids (h : d₁.resolve path = .ok (here, x)) :
    ¬ top <+: here ∧ ∃ y, y.face = x.face ∧ d.resolve path = .ok (here, y) := by
  obtain ⟨hlimit, hgo⟩ := resolve_eq_ok_iff.mp h
  obtain ⟨hhere, y, -, hface, hgo⟩ := go_of_avoids hcwd hsame htop hoff hgo
  exact ⟨hhere, y, hface, resolve_eq_ok_iff.mpr ⟨hlimit, hgo⟩⟩

end

/-- What a link says whose path goes down in a tree. -/
theorem Arrives.readLink_eq_ok_iff {base target : Bytes} {home names : Place} {n : Name}
    (h : d.Arrives base home) (hpath : Spells base (names ++ [n]) path)
    (hdir : d.root.IsDirAt (home ++ names)) :
    d.readLink path = .ok target ↔
      IsShort path (names ++ [n]) ∧ d.root.get? (home ++ names ++ [n]) = some (.link target) := by
  rw [readLink, lstat, h.find_entry hpath hdir false (by simp)]
  by_cases hshort : IsShort path (names ++ [n])
  · rw [if_pos hshort]
    cases hx : d.root.get? (home ++ names ++ [n]) with
    | none => simp [bind, Except.bind, Found.existing]
    | some x =>
      cases x with
      | link target' => simp [bind, Except.bind, Found.existing, hshort]
      | _ => simp [bind, Except.bind, Found.existing]
  · rw [if_neg hshort]
    simp [bind, Except.bind, hshort]

end Disk

end Depot.Files
