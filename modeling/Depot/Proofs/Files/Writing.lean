import Depot.Proofs.Files.Growth

/-!
Reading back what was written. A path that led to a file, or to nothing, leads to the same place
after the file is written: all directories and links on its way are still there. The directories that
are made for a file keep the tree sound.
-/

namespace Depot.Files

/-! ### Names on the way of a path -/

theorem isName_of_hop {path : Bytes} (hnul : (0 : UInt8) ∉ path) {n : Name}
    (h : .name n ∈ hops path) : IsName n := by
  obtain ⟨part, hpart, hn⟩ := List.mem_map.mp h
  rw [Hop.ofPart] at hn
  split_ifs at hn with h1 h2
  obtain rfl := Hop.name.inj hn
  have hmem : part ∈ said path := by
    refine List.mem_filter.mpr ⟨hpart, ?_⟩
    simp [Hop.ofPart, h1, h2]
  obtain ⟨hne, hslash, hsub⟩ := mem_said hmem
  exact ⟨hne, fun h => h1 (.inr h), h2, hslash, fun h0 => hnul (hsub 0 h0)⟩

namespace Way

variable {root root' : Node} {w w' : Way}

/-- The names that a sound tree leads to are names, those of link targets included. -/
theorem Step.isName (hs : root.IsSound) (h : Step root w w') (hw : ∀ n, .name n ∈ w.hops → IsName n) :
    ∀ n, .name n ∈ w'.hops → IsName n := by
  cases h with
  | stay => exact fun n hn => hw n (List.mem_cons_of_mem _ hn)
  | up => exact fun n hn => hw n (List.mem_cons_of_mem _ hn)
  | down => exact fun n hn => hw n (List.mem_cons_of_mem _ hn)
  | jump _ hx =>
    intro n hn
    rcases List.mem_append.mp hn with hn | hn
    · exact isName_of_hop (hs.targets _ _ hx).2.1 hn
    · exact hw n (List.mem_cons_of_mem _ hn)

theorem Steps.isName (hs : root.IsSound) (h : Steps root w w')
    (hw : ∀ n, .name n ∈ w.hops → IsName n) : ∀ n, .name n ∈ w'.hops → IsName n := by
  induction h with
  | refl => exact hw
  | tail _ hstep ih => exact hstep.isName hs ih

/-- A step looks only at whether nodes are directories and where links lead. -/
theorem Step.transfer
    (hsame : ∀ place x, root.get? place = some x → ∃ y, root'.get? place = some y ∧
      y.isDir = x.isDir ∧ ∀ target, y = .link target ↔ x = .link target)
    (h : Step root w w') : Step root' w w' := by
  have hdirs {place : Place} (hdir : root.IsDirAt place) : root'.IsDirAt place := by
    obtain ⟨mode, es, hx⟩ := hdir
    obtain ⟨y, hy, hkind, -⟩ := hsame place _ hx
    refine .of_isDir hy ?_
    rw [hkind]
    exact Bool.noConfusion
  cases h with
  | stay h => exact .stay (hdirs h)
  | up h => exact .up (hdirs h)
  | down hn hx hlink =>
    obtain ⟨y, hy, -, htarget⟩ := hsame _ _ hx
    exact .down hn hy fun target ht => hlink target ((htarget target).mp ht)
  | jump hn hx =>
    obtain ⟨y, hy, -, htarget⟩ := hsame _ _ hx
    obtain rfl := (htarget _).mpr rfl
    exact .jump hn hy

/-- Only what has no parts left stands at something that is no directory. -/
theorem Step.place_ne_nil (h : Step root w w') (hw : w'.hops = []) (hroot : ¬ root.IsDirAt []) :
    w'.place ≠ [] := by
  cases h with
  | stay h => exact fun heq => hroot (h.of_prefix List.nil_prefix)
  | up h => exact fun heq => hroot (h.of_prefix List.nil_prefix)
  | down => simp
  | jump => exact absurd hw (by simp [Files.hops_ne_nil])

end Way

/-- The place where steps end has names only. -/
theorem Ends.isName {root : Node} {follow : Bool} {w : Way} {found : Found}
    (h : Ends root follow w found) (hs : root.IsSound) (hw : ∀ n, .name n ∈ w.hops → IsName n) :
    ∀ n ∈ found.place, IsName n := by
  cases h with
  | reached links hsteps hnode hsome =>
    obtain ⟨x, hx⟩ := Option.isSome_iff_exists.mp hsome
    exact hs.names (hnode ▸ hx)
  | lastName links place n hsteps hdir hn hplace =>
    obtain ⟨mode, es, hx⟩ := hdir
    intro m hm
    rcases List.mem_append.mp (hplace ▸ hm) with hm | hm
    · exact hs.names hx m hm
    · exact List.mem_singleton.mp hm ▸ hsteps.isName hs hw n (by simp)

/-- What is no directory lies in one. -/
theorem Ends.parent {root : Node} {follow : Bool} {w : Way} {found : Found}
    (h : Ends root follow w found) (hw : w.hops ≠ []) (hold : ∀ x ∈ found.node, x.isDir = false) :
    found.place ≠ [] ∧ root.IsDirAt found.place.dropLast := by
  cases h with
  | lastName links place n hsteps hdir hn hplace =>
    rw [hplace]
    exact ⟨by simp, by simpa using hdir⟩
  | reached links hsteps hnode hsome =>
    obtain ⟨x, hx⟩ := Option.isSome_iff_exists.mp hsome
    have hget : root.get? found.place = some x := hnode ▸ hx
    have hplace : found.place ≠ [] := by
      intro hnil
      have hroot : ¬ root.IsDirAt [] := by
        rintro ⟨mode, es, hy⟩
        rw [hnil, hy] at hget
        obtain rfl := Option.some.inj hget
        cases hold _ hx
      rcases Relation.ReflTransGen.cases_tail hsteps with heq | ⟨w', -, hstep⟩
      · exact hw (congrArg Way.hops heq).symm
      · exact hstep.place_ne_nil rfl hroot hnil
    refine ⟨hplace, ?_⟩
    rw [← List.dropLast_concat_getLast hplace] at hget
    exact .of_append (by simp) hget

namespace Disk

variable {d : Disk} {path : Bytes} {found : Found}

theorem alike_of_look_eq {a b x : Node} {place : Place} (h : b.look place = a.look place)
    (hx : a.get? place = some x) : ∃ y, b.get? place = some y ∧ y.isDir = x.isDir ∧
      ∀ target, y = .link target ↔ x = .link target := by
  rw [Node.look, Node.look, hx] at h
  obtain ⟨y, hy, hface⟩ := Option.map_eq_some_iff.mp h
  refine ⟨y, hy, by rw [← Node.isDir_face, hface, Node.isDir_face], fun target => ?_⟩
  cases x <;> cases y <;> simp_all [Node.face]

/-- After something that is no directory was put where a path leads, the path leads to it. -/
theorem find_put (hs : d.root.IsSound) (h : d.find true path = .ok found)
    (hold : ∀ x ∈ found.node, x.isDir = false) (node : Node) (hdir : node.isDir = false)
    (hlink : ∀ target, node ≠ .link target) :
    (d.put found.place node).find true path = .ok ⟨found.place, some node⟩ := by
  have hgo := go_of_find_ok h
  obtain ⟨hne, hnul, hends⟩ := ends_of_go_ok hgo
  obtain ⟨hplace, hparent⟩ := hends.parent (hops_ne_nil path) hold
  have hget : (d.put found.place node).root.get? found.place = some node := by
    simpa using get?_put_self hs hplace hparent node []
  have hsame (place : Place) (x : Node) (hx : d.root.get? place = some x) :
      ∃ y, (d.put found.place node).root.get? place = some y ∧ y.isDir = x.isDir ∧
        ∀ target, y = .link target ↔ x = .link target := by
    by_cases hp : found.place <+: place
    · obtain ⟨rest, rfl⟩ := hp
      by_cases hrest : rest = []
      · subst hrest
        rw [List.append_nil] at hx ⊢
        have hfound : found.node = some x := hends.get?.trans hx
        refine ⟨node, hget, by rw [hdir, hold x hfound], fun target => ?_⟩
        have hx' : x ≠ .link target := fun h =>
          ne_link_of_ends hends (hops_ne_nil path) target (h ▸ hfound)
        exact iff_of_false (hlink target) hx'
      · obtain ⟨mode, es, hy⟩ := Node.isDir_of_get?_append hrest hx
        exact absurd (hold _ (hends.get?.trans hy)) (by simp [Node.isDir])
    · exact alike_of_look_eq (look_alter_outside hs hplace hp _) hx
  have hkept {w : Way} (hsteps : Way.Steps d.root ⟨linkLimit, d.startPlace path, hops path⟩ w) :
      Way.Steps (d.put found.place node).root ⟨linkLimit, d.startPlace path, hops path⟩ w :=
    Relation.ReflTransGen.mono (fun _ _ hstep => Way.Step.transfer hsame hstep) _ _ hsteps
  have hreached : ∃ links, Way.Steps (d.put found.place node).root
      ⟨linkLimit, d.startPlace path, hops path⟩ ⟨links, found.place, []⟩ := by
    cases hends with
    | reached links h => exact ⟨links, hkept h⟩
    | lastName links place n h _ hn heq =>
      refine ⟨links, (hkept h).tail ?_⟩
      rw [heq] at hget hkept ⊢
      exact .down hn hget hlink
  obtain ⟨links, hsteps⟩ := hreached
  rw [find] at h ⊢
  split_ifs at h ⊢ with hlength
  rw [go_eq hne hnul, startPlace, put, alter_cwd, ← startPlace, ← put, hsteps.walk_eq]
  exact walk_nil hget

/-! ### Files -/

/-- What a write leads to can be read if it is new, or a file that its owner may read. -/
def IsOwned (mode : Nat) : Prop := mode &&& ownerRead ≠ 0 ∧ mode &&& ownerWrite ≠ 0

instance (mode : Nat) : Decidable (IsOwned mode) := inferInstanceAs (Decidable (_ ∧ _))

/-- A file that its owner may write and read, be it new or not, is read as it was written. -/
theorem read_write (hs : d.root.IsSound) (h : d.find true path = .ok found)
    (hfile : found.node = none ∨ ∃ mode data, found.node = some (.file mode data) ∧ IsOwned mode)
    (data : Bytes) :
    ∃ d', d.write path data = .ok d' ∧ d'.doesExist path = true ∧ d'.read path = .ok data := by
  have hread (mode : Nat) (hmode : mode &&& ownerRead ≠ 0) (hold : ∀ x ∈ found.node, x.isDir = false) :
      (d.put found.place (.file mode data)).doesExist path = true ∧
        (d.put found.place (.file mode data)).read path = .ok data := by
    have hfind := find_put hs h hold (.file mode data) rfl (by simp)
    have hstat : (d.put found.place (.file mode data)).stat path = .ok (.file mode data) := by
      rw [stat, locate, hfind]
      rfl
    exact ⟨by rw [doesExist, hstat]; rfl, by rw [read, hstat]; exact if_neg hmode⟩
  obtain ⟨place, node?⟩ := found
  rcases hfile with rfl | ⟨mode, old, rfl, hmode⟩
  · refine ⟨_, ?_, hread 0o644 (by decide) (by simp)⟩
    rw [write, h]
    rfl
  · refine ⟨_, ?_, hread mode hmode.1 (by simp [Node.isDir])⟩
    rw [write, h]
    exact if_neg hmode.2

/-! ### Directories for a file -/

theorem mem_dropStays {path : Bytes} {hop : Hop} (h : hop ∈ dropStays path) : hop ∈ hops path := by
  rw [dropStays, List.mem_reverse] at h
  exact List.mem_reverse.mp ((List.dropWhile_sublist _).subset h)

theorem of_makeDir_ok {d' : Disk} {mode : Nat} (h : d.makeDir path mode = .ok d') :
    (0 : UInt8) ∉ path ∧ ∃ place,
      walk d.root false linkLimit (d.startPlace path) (dropStays path) = .ok ⟨place, none⟩ ∧
        d' = d.put place (.dir mode []) := by
  by_cases hlength : path.length > pathLimit
  · rw [makeDir, if_pos hlength] at h
    cases h
  by_cases hne : path = []
  · rw [makeDir, if_neg hlength, if_pos hne] at h
    cases h
  by_cases hnul : (0 : UInt8) ∈ path
  · rw [makeDir, if_neg hlength, if_neg hne, if_pos hnul] at h
    cases h
  rw [makeDir, if_neg hlength, if_neg hne, if_neg hnul] at h
  refine ⟨hnul, ?_⟩
  rw [← travel_start]
  cases hstart : d.start path with
  | error e =>
    rw [hstart] at h
    cases h
  | ok t =>
    rw [hstart] at h
    change travelWithin d.root false linkLimit t (dropStays path) >>= _ = _ at h
    change ∃ place, travelWithin d.root false linkLimit t (dropStays path) = _ ∧ _
    cases hfound : travelWithin d.root false linkLimit t (dropStays path) with
    | error e =>
      rw [hfound] at h
      cases h
    | ok found =>
      rw [hfound] at h
      obtain ⟨place, _ | x⟩ := found
      · exact ⟨place, rfl, (Except.ok.inj h).symm⟩
      · cases h

theorem isSound_makeDir {d' : Disk} {mode : Nat} (hs : d.root.IsSound)
    (h : d.makeDir path mode = .ok d') : d'.root.IsSound := by
  obtain ⟨hnul, place, hwalk, rfl⟩ := of_makeDir_ok h
  have hstart : ∃ x, d.root.get? (d.startPlace path) = some x := by
    by_contra hnone
    rw [walk_of_none (by simpa [Option.eq_none_iff_forall_ne_some] using hnone)] at hwalk
    cases hwalk
  obtain ⟨x, hx⟩ := hstart
  have hends := ends_of_walk_ok hx hwalk
  refine isSound_put hs (hends.isName hs fun n hn => ?_) (Node.isSound_dir_iff.mpr ⟨.nil, by simp⟩)
  exact isName_of_hop hnul (mem_dropStays hn)

theorem isSound_makeDirsUp {d' : Disk} {cs : List Path.Component} (hs : d.root.IsSound)
    (h : d.makeDirsUp cs = .ok d') : d'.root.IsSound := by
  induction cs generalizing d' with
  | nil => cases h
  | cons c above ih =>
    rcases makeDirsUp_ok_cases rfl h with hmake | ⟨-, rfl⟩ | ⟨d₁, -, hup, hmake | ⟨-, rfl⟩⟩
    · exact isSound_makeDir hs hmake
    · exact hs
    · exact isSound_makeDir (ih hup) hmake
    · exact ih hup

theorem isSound_makeDirs {d' : Disk} (hs : d.root.IsSound) (h : d.makeDirs path = .ok d') :
    d'.root.IsSound := by
  rw [makeDirs] at h
  split_ifs at h
  · exact Except.ok.inj h ▸ hs
  · exact isSound_makeDirsUp hs h

end Disk

end Depot.Files
