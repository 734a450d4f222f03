import Depot.Proofs.Files.Spelling

/-!
Paths that lead to a directory without looking into it. Such a path goes on leading there whatever
happens inside the directory, and names added to it lead on from there.
-/

namespace Depot.Files

namespace Node

/-- Two trees look the same everywhere but at a place and below it. -/
def SameOff (place : Place) (a b : Node) : Prop :=
  ∀ other, ¬ place <+: other → a.look other = b.look other

namespace SameOff

variable {place : Place} {a b c : Node}

theorem refl : SameOff place a a := fun _ _ => rfl

theorem symm (h : SameOff place a b) : SameOff place b a := fun other hother => (h other hother).symm

theorem trans (h : SameOff place a b) (h' : SameOff place b c) : SameOff place a c :=
  fun other hother => (h other hother).trans (h' other hother)

theorem of_append {rest : Place} (h : SameOff (place ++ rest) a b) : SameOff place a b :=
  fun other hother => h other fun h' => hother ((List.prefix_append place rest).trans h')

theorem isDirAt {other : Place} (h : SameOff place a b) (hother : ¬ place <+: other) :
    a.IsDirAt other ↔ b.IsDirAt other := isDirAt_of_look_eq (h other hother)

end SameOff

end Node

theorem dropStays_eq_hops {path : Bytes} (h : (hops path).getLast? ≠ some .stay) :
    Disk.dropStays path = hops path := by
  rcases List.eq_nil_or_concat (hops path) with hnil | ⟨init, hop, hinit⟩
  · exact absurd hnil (hops_ne_nil path)
  · rw [List.concat_eq_append] at hinit
    have hhop : hop ≠ .stay := by simpa [hinit] using h
    simp [Disk.dropStays, hinit, hhop]

namespace Disk

/-- A path leads to a directory, whatever is in the directory. -/
structure LeadsTo (d : Disk) (path : Bytes) (place : Place) : Prop where
  ne_nil : path ≠ []
  nul : (0 : UInt8) ∉ path
  dir : d.root.IsDirAt place
  walks : ∃ links, ∀ root : Node, d.root.SameOff place root → root.IsDirAt place →
    ∀ (follow : Bool) (more : List Hop), follow = true ∨ more ≠ [] →
      walk root follow linkLimit (d.startPlace path) (hops path ++ more) =
        walk root follow links place more

theorem LeadsTo.frame {d d' : Disk} {path : Bytes} {place : Place} (h : d.LeadsTo path place)
    (hcwd : d'.cwd = d.cwd) (hsame : d.root.SameOff place d'.root) (hdir : d'.root.IsDirAt place) :
    d'.LeadsTo path place := by
  obtain ⟨links, hwalks⟩ := h.walks
  refine ⟨h.ne_nil, h.nul, hdir, links, fun root hroot hd follow more hmore => ?_⟩
  rw [startPlace, hcwd]
  exact hwalks root (hsame.trans hroot) hd follow more hmore

theorem walk_down {root : Node} {follow : Bool} {links : Nat} {place : Place} {n : Name}
    (hn : n.length ≤ 255) (hdir : root.IsDirAt (place ++ [n])) (more : List Hop) :
    walk root follow links place (.name n :: more) =
      walk root follow links (place ++ [n]) more := by
  obtain ⟨mode, es, hx⟩ := hdir
  rw [walk_name (.of_append (by simp) hx), if_neg (by omega), hx]

theorem walk_names {root : Node} {names : Place} (hlen : ∀ n ∈ names, n.length ≤ 255)
    {place : Place} (hdir : root.IsDirAt (place ++ names)) (follow : Bool) (links : Nat)
    (more : List Hop) :
    walk root follow links place (names.map .name ++ more) =
      walk root follow links (place ++ names) more := by
  induction names generalizing place with
  | nil => simp
  | cons n names ih =>
    rw [List.append_cons] at hdir ⊢
    rw [List.map_cons, List.cons_append, walk_down (hlen n List.mem_cons_self)
      (hdir.of_prefix (List.prefix_append _ _))]
    exact ih (fun m hm => hlen m (List.mem_cons_of_mem _ hm)) hdir

theorem LeadsTo.down {d : Disk} {base path : Bytes} {place names : Place}
    (h : d.LeadsTo base place) (hlen : ∀ n ∈ names, n.length ≤ 255)
    (hpath : Spells base names path) (hdir : d.root.IsDirAt (place ++ names)) :
    d.LeadsTo path (place ++ names) := by
  obtain ⟨links, hwalks⟩ := h.walks
  refine ⟨hpath.ne_nil, hpath.nul, hdir, links, fun root hroot hd follow more hmore => ?_⟩
  have htrim : Trimmed (hops base ++ (names.map .name ++ more)) (hops path ++ more) := by
    simpa using hpath.hops.append (.refl more)
  have hmore' : follow = true ∨ names.map Hop.name ++ more ≠ [] := by
    rcases hmore with hf | hne
    · exact .inl hf
    · exact .inr (by simp [hne])
  rw [startPlace, hpath.absolute, ← htrim.walk_eq, ← walk_names hlen hd]
  exact hwalks root hroot.of_append (hd.of_prefix (List.prefix_append _ _)) follow _ hmore'

/-- A step on the way to an empty directory is none inside it. -/
theorem step_sameOff {root root' : Node} {place : Place} {mode : Nat} {w w' : Way}
    (hempty : root.get? place = some (.dir mode [])) (hsame : root.SameOff place root')
    (hdir : root'.IsDirAt place) (h : Way.Step root w w') : Way.Step root' w w' := by
  have hlook : ∀ other x, root.get? other = some x → other = place ∨
      root.look other = root'.look other := by
    intro other x hx
    by_cases hp : place <+: other
    · obtain ⟨rest, rfl⟩ := hp
      by_cases hrest : rest = []
      · exact .inl (by simp [hrest])
      · obtain ⟨n, more, rfl⟩ := List.exists_cons_of_ne_nil hrest
        rw [Node.get?_append, hempty] at hx
        cases hx
    · exact .inr (hsame other hp)
  have hdirs : ∀ {other : Place}, root.IsDirAt other → root'.IsDirAt other := by
    intro other h
    obtain ⟨m, es, hx⟩ := h
    rcases hlook other _ hx with rfl | heq
    · exact hdir
    · exact (Node.isDirAt_of_look_eq heq).mp ⟨m, es, hx⟩
  cases h with
  | stay h => exact .stay (hdirs h)
  | up h => exact .up (hdirs h)
  | @down links here hs n child hn hx hlink =>
    rcases hlook _ _ hx with heq | heq
    · obtain ⟨m, es, hx'⟩ := hdir
      exact .down hn (heq ▸ hx') (by simp)
    · have hsome : (root'.look (here ++ [n])).isSome := by
        rw [← heq, Node.look, hx]
        rfl
      obtain ⟨child', hx'⟩ : ∃ child', root'.get? (here ++ [n]) = some child' := by
        rw [Node.look, Option.isSome_map] at hsome
        exact Option.isSome_iff_exists.mp hsome
      refine .down hn hx' fun target ht => ?_
      rw [ht, ← Node.look_eq_some_iff rfl, ← heq, Node.look_eq_some_iff rfl, hx] at hx'
      exact hlink target (Option.some.inj hx')
  | @jump links here hs n target hn hx =>
    rcases hlook _ _ hx with heq | heq
    · rw [heq, hempty] at hx
      cases hx
    · rw [← Node.look_eq_some_iff rfl, heq, Node.look_eq_some_iff rfl] at hx
      exact .jump hn hx

/-- A path that leads to an empty directory goes on leading there when the directory is filled. -/
theorem leadsTo_of_go {d : Disk} {path : Bytes} {place : Place} {mode : Nat}
    (h : d.go true path = .ok ⟨place, some (.dir mode [])⟩) : d.LeadsTo path place := by
  obtain ⟨hne, hnul, hends⟩ := ends_of_go_ok h
  have hempty := get?_of_go h
  obtain ⟨links, hsteps⟩ := hends.steps
  refine ⟨hne, hnul, ⟨mode, [], hempty⟩, links, fun root hroot hdir follow more hmore => ?_⟩
  have hsteps' : Way.Steps root ⟨linkLimit, d.startPlace path, hops path⟩ ⟨links, place, []⟩ :=
    hsteps.lift id fun _ _ => step_sameOff hempty hroot hdir
  by_cases hnil : more = []
  · subst hnil
    obtain rfl := hmore.resolve_right (by simp)
    simpa using hsteps'.walk_eq
  · simpa using hsteps'.walk_append hnil follow

theorem leadsTo_of_locate {d : Disk} {path : Bytes} {place : Place} {mode : Nat}
    (h : d.locate path = .ok (place, .dir mode [])) : d.LeadsTo path place :=
  leadsTo_of_go (go_of_locate_ok h)

theorem leadsTo_root (d : Disk) (hdir : d.root.IsDirAt []) : d.LeadsTo [Path.slash] [] := by
  refine ⟨by simp, by decide, hdir, linkLimit, fun root _ hd follow more _ => ?_⟩
  have hhops : hops [Path.slash] = [.stay, .stay] := rfl
  have hstart : d.startPlace [Path.slash] = [] := rfl
  rw [hhops, hstart, List.cons_append, List.cons_append, walk_stay hd, walk_stay hd, List.nil_append]

theorem LeadsTo.go {d : Disk} {path : Bytes} {place : Place} {x : Node} (h : d.LeadsTo path place)
    (hx : d.root.get? place = some x) : d.go true path = .ok ⟨place, some x⟩ := by
  obtain ⟨links, hwalks⟩ := h.walks
  have hwalk := hwalks d.root .refl h.dir true [] (.inl rfl)
  rw [List.append_nil, walk_nil hx] at hwalk
  rw [go_eq h.ne_nil h.nul, hwalk]

theorem LeadsTo.find {d : Disk} {path : Bytes} {place : Place} (h : d.LeadsTo path place) :
    d.find true path = .error .nameTooLong ∨ d.find true path = .ok ⟨place, d.root.get? place⟩ := by
  rw [Disk.find]
  split_ifs
  · exact .inl rfl
  · obtain ⟨mode, es, hx⟩ := h.dir
    rw [h.go hx, hx]
    exact .inr rfl

/-- A path names an entry of a directory, whether there is such an entry or not. Some operations
find that one of the names is too long. -/
structure Names (d : Disk) (path : Bytes) (place : Place) (n : Name) : Prop where
  ne_nil : path ≠ []
  nul : (0 : UInt8) ∉ path
  isName : IsName n
  last : (hops path).getLast? = some (.name n)
  dir : d.root.IsDirAt place
  walks : (∃ links, ∀ follow,
      walk d.root follow linkLimit (d.startPlace path) (hops path) =
        walk d.root follow links place [.name n]) ∨
    ∀ follow, walk d.root follow linkLimit (d.startPlace path) (hops path) = .error .nameTooLong

theorem walk_names_of_long {root : Node} {names : Place} (hlen : ¬ ∀ n ∈ names, n.length ≤ 255)
    {place : Place} (hdir : root.IsDirAt (place ++ names)) (follow : Bool) (links : Nat)
    (more : List Hop) :
    walk root follow links place (names.map .name ++ more) = .error .nameTooLong := by
  induction names generalizing place with
  | nil => simp at hlen
  | cons n names ih =>
    rw [List.append_cons] at hdir
    have hn : root.IsDirAt (place ++ [n]) := hdir.of_prefix (List.prefix_append _ _)
    rw [List.map_cons, List.cons_append]
    by_cases hlong : n.length ≤ 255
    · rw [walk_down hlong hn]
      refine ih (fun hall => hlen fun m hm => ?_) hdir
      rcases List.mem_cons.mp hm with rfl | hm
      · exact hlong
      · exact hall m hm
    · rw [walk_name (hn.of_prefix (List.prefix_append _ _)), if_pos (by omega)]

theorem LeadsTo.names {d : Disk} {base path : Bytes} {place names : Place} {n : Name}
    (h : d.LeadsTo base place) (hn : IsName n) (hpath : Spells base (names ++ [n]) path)
    (hdir : d.root.IsDirAt (place ++ names)) : d.Names path (place ++ names) n := by
  obtain ⟨links, hwalks⟩ := h.walks
  have hwalk : ∀ follow, walk d.root follow linkLimit (d.startPlace path) (hops path) =
      walk d.root follow links place (names.map .name ++ [.name n]) := by
    intro follow
    rw [startPlace, hpath.absolute, ← hpath.hops.walk_eq, List.map_append]
    exact hwalks d.root .refl h.dir follow _ (.inr (by simp))
  refine ⟨hpath.ne_nil, hpath.nul, hn, hpath.getLast?_hops, hdir, ?_⟩
  by_cases hlen : ∀ m ∈ names, m.length ≤ 255
  · exact .inl ⟨links, fun follow => (hwalk follow).trans (walk_names hlen hdir follow links _)⟩
  · exact .inr fun follow => (hwalk follow).trans (walk_names_of_long hlen hdir follow links _)

theorem LeadsTo.name {d : Disk} {base path : Bytes} {place : Place} {n : Name}
    (h : d.LeadsTo base place) (hn : IsName n) (hpath : Spells base [n] path) :
    d.Names path place n := by
  have hnames := @LeadsTo.names d base path place [] n h hn hpath (by simpa using h.dir)
  rwa [List.append_nil] at hnames

namespace Names

variable {d : Disk} {path : Bytes} {place : Place} {n : Name}

/-- What is found under a name; a link is only found when it is not followed. -/
theorem walk_eq (h : d.Names path place n) (follow : Bool)
    (hlink : follow = true → ∀ target, d.root.get? (place ++ [n]) ≠ some (.link target)) :
    walk d.root follow linkLimit (d.startPlace path) (hops path) = .error .nameTooLong ∨
      n.length ≤ 255 ∧ walk d.root follow linkLimit (d.startPlace path) (hops path) =
        .ok ⟨place ++ [n], d.root.get? (place ++ [n])⟩ := by
  rcases h.walks with ⟨links, hwalk⟩ | hlong
  · rw [hwalk, walk_name h.dir]
    by_cases hlen : n.length > 255
    · exact .inl (if_pos hlen)
    · refine .inr ⟨by omega, ?_⟩
      rw [if_neg hlen]
      cases hx : d.root.get? (place ++ [n]) with
      | none => simp
      | some x =>
        cases x with
        | link target =>
          cases follow with
          | false => simp
          | true => exact absurd hx (hlink rfl target)
        | _ => exact walk_nil hx
  · exact .inl (hlong follow)

theorem find_eq (h : d.Names path place n) (follow : Bool)
    (hlink : follow = true → ∀ target, d.root.get? (place ++ [n]) ≠ some (.link target)) :
    d.find follow path = .error .nameTooLong ∨
      n.length ≤ 255 ∧ d.find follow path = .ok ⟨place ++ [n], d.root.get? (place ++ [n])⟩ := by
  rw [Disk.find]
  split_ifs
  · exact .inl rfl
  · rw [go_eq h.ne_nil h.nul]
    exact h.walk_eq follow hlink

end Names

theorem spells_pathOf {place : Place} (hne : place ≠ []) (h : ∀ n ∈ place, IsName n) :
    Spells [Path.slash] place (pathOf place) where
  ne_nil := by simp [pathOf]
  nul := by
    have hnul := nul_notMem_joinWith fun n hn => (h n hn).2.2.2.2
    simpa [pathOf, Path.slash] using hnul
  absolute := by simp [pathOf, Path.isAbsolute]
  hops := by
    rw [pathOf, hops_slash, hops_slash, hops_joinWith hne h]
    exact .keep .stay (.drop (.refl _) (by simp [hne]))

theorem leadsTo_pathOf {d : Disk} {place : Place} (hlen : ∀ n ∈ place, n.length ≤ 255)
    (h : ∀ n ∈ place, IsName n) (hdir : d.root.IsDirAt place) : d.LeadsTo (pathOf place) place := by
  have hroot := d.leadsTo_root (hdir.of_prefix List.nil_prefix)
  by_cases hne : place = []
  · subst hne
    exact hroot
  · exact hroot.down hlen (spells_pathOf hne h) hdir

theorem find_pathOf {d : Disk} (hs : d.root.IsSound) {place : Place} {x : Node}
    (hx : d.root.get? place = some x) (hlink : ∀ target, x ≠ .link target)
    (hroot : d.root.IsDirAt []) :
    d.find true (pathOf place) = .error .nameTooLong ∨
      d.find true (pathOf place) = .ok ⟨place, some x⟩ := by
  have hnames := hs.names hx
  rcases List.eq_nil_or_concat place with rfl | ⟨ns, n, rfl⟩
  · rw [← hx]
    exact (d.leadsTo_root hroot).find
  · rw [List.concat_eq_append] at *
    have hname := (d.leadsTo_root hroot).names (hnames n (by simp))
      (spells_pathOf (by simp) hnames) (.of_append (by simp) hx)
    rcases hname.find_eq true (by simp [hx, hlink]) with hfind | ⟨-, hfind⟩
    · exact .inl hfind
    · rw [List.nil_append, hx] at hfind
      exact .inr hfind

theorem of_locate_pathOf {d : Disk} (hs : d.root.IsSound) {place place' : Place} {x y : Node}
    (hx : d.root.get? place = some x) (hlink : ∀ target, x ≠ .link target)
    (h : d.locate (pathOf place) = .ok (place', y)) : place' = place ∧ y = x := by
  rw [locate] at h
  by_cases hroot : d.root.IsDirAt []
  · rcases find_pathOf hs hx hlink hroot with hfind | hfind
    · rw [hfind] at h
      cases h
    · rw [hfind] at h
      obtain ⟨rfl, rfl⟩ := Prod.mk.inj (Except.ok.inj h)
      exact ⟨rfl, rfl⟩
  · have hnil : place = [] := by
      by_contra hne
      exact hroot (.of_append hne (show d.root.get? ([] ++ place) = some x from hx))
    have hnot : d.root.isDir = false := by
      by_contra hdir
      exact hroot (.of_isDir (Node.get?_nil d.root) hdir)
    have hfind : d.find true (pathOf place) = .error .notDirectory := by
      subst hnil
      rw [find, if_neg (by decide), go_eq (by decide) (by decide)]
      exact walk_cons_of_not_dir (Node.get?_nil d.root) hnot _ _
    rw [hfind] at h
    cases h

end Disk

end Depot.Files
