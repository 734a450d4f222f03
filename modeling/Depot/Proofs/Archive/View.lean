import Depot.Proofs.Archive.Expansion
import Depot.Proofs.Archive.Likeness
import Depot.Proofs.Files.Deciding
import Mathlib.Algebra.GroupWithZero.Nat

/-!
The view of a tree that a copy makes: the directories, files and safe links of the tree, and in the
place of each unsafe link the expansion of what the link leads to. A copy goes through exactly if there
is such a view, all files can be read and no path is too long. Then it makes the view and nothing else,
and counts what is in it. Of the modes, a file keeps all but the bits that let it be run as its owner
or its group; the view says nothing of these.
-/

namespace Depot.Archive

open Files

/-! ### The view -/

mutual

/-- What a copy makes of the node at a place of the tree. `copyOf` tells what takes the place of the
link at a place. -/
def shown (copyOf : Place → Node) (place : Place) : Node → Option Node
  | .file mode data => some (.file (Disk.plainMode mode) data)
  | .link target => some (if SafeLink.isSafe place target then .link target else copyOf place)
  | .special _ => none
  | .dir _ es => some (.dir 0o755 (shownAll copyOf place es))

def shownAll (copyOf : Place → Node) (place : Place) : Entries → Entries
  | [] => []
  | (n, node) :: rest =>
    match shown copyOf (place ++ [n]) node with
    | some x => (n, x) :: shownAll copyOf place rest
    | none => shownAll copyOf place rest

end

/-- A link that a copy does not keep. -/
def IsUnsafe (place : Place) : Node → Bool
  | .link target => !SafeLink.isSafe place target
  | _ => false

/-- What a copy needs of the node at a place of the tree at `source`: a file can be read, and what an
unsafe link leads to has an expansion. -/
def CanCopy (d : Disk) (source : Bytes) (copyOf : Place → Node) (place : Place) : Node → Prop
  | .special _ => True
  | .dir .. => Disk.IsShort (Path.below source place) place
  | .file mode _ => Disk.IsShort (Path.below source place) place ∧ mode &&& Disk.ownerRead ≠ 0
  | .link target => Disk.IsShort (Path.below source place) place ∧
      (SafeLink.isSafe place target = false → ∃ here node,
        d.resolve (Path.below source place) = .ok (here, node) ∧
          Expands d (Disk.pathOf here) (copyOf place))

/-- How the path of a node of the copy is spelled: a directory in the place of a link has a slash at
the end. -/
def spelledAt (dest : Bytes) (tree : Node) (place : Place) (node : Node) : Bytes :=
  match tree.get? place, node with
  | some (.link _), .dir .. => Path.below (Path.below dest place) []
  | _, _ => Path.below dest place

/-- The nodes that came of a task, with their names below its place. -/
def Outcome.nodes (o : Outcome) : List (Place × Node) :=
  o.node?.elim [] Node.nodes

/-! ### Counting -/

theorem Stats.count_sum (count : Stats → Nat) (hzero : count 0 = 0)
    (hadd : ∀ s t : Stats, count (s + t) = count s + count t) (l : List Stats) :
    count l.sum = (l.map count).sum := by
  induction l with
  | nil => exact hzero
  | cons s l ih => rw [List.sum_cons, hadd, ih, List.map_cons, List.sum_cons]

theorem Outcome.countP_entries (p : Node → Bool) (outs : List Outcome) :
    (Node.beneathAll (entries outs)).countP (fun e => p e.2) =
      (outs.map fun o => o.nodes.countP fun e => p e.2).sum := by
  induction outs with
  | nil => rfl
  | cons o outs ih =>
    rw [List.map_cons, List.sum_cons, ← ih]
    cases hnode : o.node? with
    | none => simp [entries, nodes, hnode]
    | some node =>
      have hentries : entries (o :: outs) = (o.task.name, node) :: entries outs := by
        simp [entries, hnode]
      rw [hentries, Node.beneathAll_cons, List.countP_append, List.countP_map]
      simp only [nodes, hnode, Option.elim_some, Function.comp_def]

theorem Outcome.count_total (count : Stats → Nat) (p : Node → Bool) {outs : List Outcome}
    (hzero : count 0 = 0) (hadd : ∀ s t : Stats, count (s + t) = count s + count t)
    (h : ∀ o ∈ outs, count o.stats = o.nodes.countP fun e => p e.2) :
    count (total outs) = (Node.beneathAll (entries outs)).countP fun e => p e.2 := by
  rw [total, Stats.count_sum count hzero hadd, countP_entries, List.map_map]
  exact congrArg List.sum (List.map_congr_left h)

theorem Renders.counts {d : Disk} {route : Route} {o : Outcome} (h : Renders d route o) :
    o.stats.files = o.nodes.countP (fun e => e.2.kind = .file) ∧
      o.stats.links = o.nodes.countP (fun e => e.2.kind = .link) := by
  induction h with
  | @leaf task node? h hleaf hshort =>
    cases node? with
    | none => exact ⟨rfl, rfl⟩
    | some node =>
      have hnot := hleaf node rfl
      cases node with
      | dir => cases hnot
      | _ => cases task with
        | entry place kind => cases kind <;> exact ⟨rfl, rfl⟩
        | inner => exact ⟨rfl, rfl⟩
  | @dir task here mode es outs h hshort htasks houts ih =>
    have htally : (task.tally (.dir 0o755 [])).files = 0 ∧ (task.tally (.dir 0o755 [])).links = 0 := by
      cases task with
      | entry place kind => cases kind <;> exact ⟨rfl, rfl⟩
      | inner => exact ⟨rfl, rfl⟩
    constructor
    · show (task.tally (.dir 0o755 [])).files + (Outcome.total outs).files = _
      rw [htally.1, Outcome.count_total Stats.files (fun x => x.kind = .file) rfl (fun _ _ => rfl)
        fun o ho => (ih o ho).1]
      simp [Outcome.nodes, Node.nodes_dir, Node.kind]
    · show (task.tally (.dir 0o755 [])).links + (Outcome.total outs).links = _
      rw [htally.2, Outcome.count_total Stats.links (fun x => x.kind = .link) rfl (fun _ _ => rfl)
        fun o ho => (ih o ho).2]
      simp [Outcome.nodes, Node.nodes_dir, Node.kind]

theorem Outcome.replaced_total_eq_zero {outs : List Outcome} (h : ∀ o ∈ outs, o.stats.replaced = 0) :
    (total outs).replaced = 0 := by
  rw [total, Stats.count_sum Stats.replaced rfl (fun _ _ => rfl), List.map_map,
    List.sum_eq_zero_iff_forall_eq_nat]
  exact List.forall_mem_map.mpr h

/-- Below a replaced link no link is counted as replaced. -/
theorem Renders.replaced_inner {d : Disk} {route : Route} {o : Outcome} (h : Renders d route o)
    {v : Visit} {n : Name} {kind : Kind} (htask : o.task = .inner v n kind) :
    o.stats.replaced = 0 := by
  induction h generalizing v n kind with
  | @leaf task node? h hleaf hshort =>
    cases htask
    cases node? with
    | none => rfl
    | some node => cases node <;> rfl
  | @dir task here mode es outs h hshort htasks houts ih =>
    cases htask
    show 0 + (Outcome.total outs).replaced = 0
    rw [Outcome.replaced_total_eq_zero fun o ho => ?_]
    obtain ⟨e, -, he⟩ := Outcome.exists_of_mem htasks ho
    exact ih o ho he

/-! ### The entries of the tree -/

section
variable {d : Disk} {route : Route} {src : Place} {mode : Nat} {es : Entries}
  (hs : d.root.IsSound) (hsrc : d.locate route.source = .ok (src, .dir mode es))
include hs hsrc

omit hs in
theorem get?_tree (place : Place) : d.root.get? (src ++ place) = (Node.dir mode es).get? place := by
  rw [Node.get?_append, Disk.get?_of_locate_ok hsrc, Option.bind_some]

theorem spells_entry {place : Place} {node : Node} (hne : place ≠ [])
    (hx : (Node.dir mode es).get? place = some node) :
    d.Arrives route.source src ∧ ∃ names n, place = names ++ [n] ∧
      Spells route.source (names ++ [n]) (Path.below route.source place) ∧
      d.root.IsDirAt (src ++ names) ∧ d.root.get? (src ++ names ++ [n]) = some node := by
  have ha := Disk.arrives_of_go (Disk.go_of_locate_ok hsrc)
  have hget : d.root.get? (src ++ place) = some node := (get?_tree hsrc place).trans hx
  have hnames : ∀ n ∈ place, IsName n := fun n hn =>
    hs.names hget n (List.mem_append_right _ hn)
  have hspells := spells_below ha.ne_nil ha.nul hne hnames
  obtain ⟨names, n, rfl⟩ := List.eq_nil_or_concat place |>.resolve_left hne
  rw [List.concat_eq_append] at hget hspells ⊢
  rw [← List.append_assoc] at hget
  exact ⟨ha, names, n, rfl, hspells, .of_append (by simp) hget, hget⟩

theorem locate_entry_eq_ok_iff {place here : Place} {node x : Node} (hne : place ≠ [])
    (hx : (Node.dir mode es).get? place = some node) (hlink : node.kind ≠ .link) :
    d.locate (Path.below route.source place) = .ok (here, x) ↔
      Disk.IsShort (Path.below route.source place) place ∧ here = src ++ place ∧ x = node := by
  obtain ⟨ha, names, n, rfl, hspells, hdir, hget⟩ := spells_entry hs hsrc hne hx
  have hnot : ∀ target, d.root.get? (src ++ names ++ [n]) ≠ some (.link target) := by
    intro target ht
    rw [hget] at ht
    exact hlink (by rw [Option.some.inj ht]; rfl)
  rw [Disk.locate, ha.find_entry hspells hdir true fun _ => hnot, hget]
  by_cases hshort : Disk.IsShort (Path.below route.source (names ++ [n])) (names ++ [n])
  · rw [if_pos hshort]
    simp only [bind, Except.bind, Found.existing, Except.ok.injEq, Prod.mk.injEq, hshort, true_and,
      List.append_assoc]
    exact and_congr eq_comm eq_comm
  · rw [if_neg hshort]
    simp [bind, Except.bind, hshort]

theorem readLink_entry_eq_ok_iff {place : Place} {node : Node} {target : Bytes} (hne : place ≠ [])
    (hx : (Node.dir mode es).get? place = some node) :
    d.readLink (Path.below route.source place) = .ok target ↔
      Disk.IsShort (Path.below route.source place) place ∧ node = .link target := by
  obtain ⟨ha, names, n, rfl, hspells, hdir, hget⟩ := spells_entry hs hsrc hne hx
  rw [ha.readLink_eq_ok_iff hspells hdir, hget, Option.some.injEq]

theorem get?_child {place : Place} {mode' : Nat} {children : Entries}
    (hx : (Node.dir mode es).get? place = some (.dir mode' children)) {e : Name × Node}
    (he : e ∈ children) : (Node.dir mode es).get? (place ++ [e.1]) = some e.2 := by
  have hsound := hs.entries _ _ _ ((get?_tree hsrc place).trans hx)
  rw [Node.get?_append, hx, Option.bind_some, Node.get?_dir_cons,
    hsound.find?_of_mem (n := e.1) (x := e.2) he]
  rfl

end

/-! ### What came of an entry -/

theorem spelledAt_of_not_dir {dest : Bytes} {tree node : Node} {place : Place}
    (h : node.isDir = false) : spelledAt dest tree place node = Path.below dest place := by
  rw [spelledAt.eq_def]
  split
  · cases h
  · rfl

theorem spelling_of_not_dir {dest : Bytes} {node : Node} {place : Place} (h : node.isDir = false)
    (kind : Kind) : Task.spelling dest (.entry place kind) node = Path.below dest place := by
  cases node with
  | dir => cases h
  | _ => cases kind <;> rfl

theorem spelledAt_of_link {dest target : Bytes} {tree : Node} {place : Place}
    (h : tree.get? place = some (.link target)) (node : Node) :
    spelledAt dest tree place node = Task.spelling dest (.entry place .link) node := by
  rw [spelledAt.eq_def, h]
  cases node <;> rfl

theorem spelledAt_below_link {dest target : Bytes} {tree : Node} {place rest : Place}
    (h : tree.get? place = some (.link target)) (hne : rest ≠ []) (node : Node) :
    spelledAt dest tree (place ++ rest) node = Path.below dest (place ++ rest) := by
  obtain ⟨n, rest, rfl⟩ := List.exists_cons_of_ne_nil hne
  rw [spelledAt.eq_def, Node.get?_append, h]
  rfl

/-- What came of an entry is the view of it. -/
structure Shows (d : Disk) (route : Route) (tree : Node) (copyOf : Place → Node) (place : Place)
    (node : Node) (o : Outcome) : Prop where
  made : o.plain? = shown copyOf place node
  can : ∀ e ∈ node.nodes, CanCopy d route.source copyOf (place ++ e.1) e.2
  short : ∀ x ∈ o.plain?, ∀ e ∈ x.nodes,
    Disk.IsShort (spelledAt route.dest tree (place ++ e.1) e.2) (place ++ e.1)
  replaced : o.stats.replaced =
    node.nodes.countP fun e => IsUnsafe (place ++ e.1) e.2

namespace Shows

variable {d : Disk} {route : Route} {tree node : Node} {copyOf : Place → Node} {place : Place}

theorem of_leaf {kind : Kind} {node? : Option Node} {stats : Stats} (hdir : node.isDir = false)
    (hleaf : ∀ x ∈ node?, x.isDir = false) (hnode : node?.map Node.plain = shown copyOf place node)
    (hcan : CanCopy d route.source copyOf place node)
    (hshort : ∀ x ∈ node?, Disk.IsShort (Task.spelling route.dest (.entry place kind) x) place)
    (hreplaced : stats.replaced = if IsUnsafe place node then 1 else 0) :
    Shows d route tree copyOf place node ⟨.entry place kind, node?, stats⟩ := by
  refine ⟨hnode, fun e he => ?_, fun x hx e he => ?_, ?_⟩
  · rw [Node.nodes_of_not_dir hdir, List.mem_singleton] at he
    rw [he, List.append_nil]
    exact hcan
  · obtain ⟨y, hy, rfl⟩ := Option.map_eq_some_iff.mp hx
    have hleaf' : y.plain.isDir = false := (y.isDir_moded _).trans (hleaf y hy)
    rw [Node.nodes_of_not_dir hleaf', List.mem_singleton] at he
    rw [he, List.append_nil, spelledAt_of_not_dir hleaf', ← spelling_of_not_dir (hleaf y hy) kind]
    exact hshort y hy
  · rw [Node.nodes_of_not_dir hdir, List.countP_singleton, List.append_nil]
    exact hreplaced

theorem all {outs : List Outcome} {children : Entries}
    (htasks : outs.map Outcome.task = children.map fun e => .entry (place ++ [e.1]) e.2.kind)
    (h : ∀ o ∈ outs, ∀ e ∈ children, o.task = .entry (place ++ [e.1]) e.2.kind →
      Shows d route tree copyOf (place ++ [e.1]) e.2 o) :
    Outcome.plainEntries outs = shownAll copyOf place children ∧
      (∀ e ∈ Node.beneathAll children, CanCopy d route.source copyOf (place ++ e.1) e.2) ∧
      (∀ e ∈ Node.beneathAll (Outcome.plainEntries outs),
        Disk.IsShort (spelledAt route.dest tree (place ++ e.1) e.2) (place ++ e.1)) ∧
      (Outcome.total outs).replaced =
        (Node.beneathAll children).countP fun e => IsUnsafe (place ++ e.1) e.2 := by
  induction children generalizing outs with
  | nil =>
    obtain rfl := List.map_eq_nil_iff.mp htasks
    exact ⟨rfl, nofun, nofun, rfl⟩
  | cons e children ih =>
    cases outs with
    | nil => cases htasks
    | cons o outs =>
      obtain ⟨hfirst, hrest⟩ : o.task = .entry (place ++ [e.1]) e.2.kind ∧
        outs.map Outcome.task = children.map fun e => .entry (place ++ [e.1]) e.2.kind :=
          List.cons.inj htasks
      obtain ⟨hnode, hcan, hshort, hreplaced⟩ := h o List.mem_cons_self e List.mem_cons_self hfirst
      obtain ⟨hentries, hcans, hshorts, hcount⟩ := ih hrest fun o ho e he =>
        h o (List.mem_cons_of_mem _ ho) e (List.mem_cons_of_mem _ he)
      have hname : o.task.name = e.1 := by
        rw [hfirst]
        simp [Task.name]
      have hcons := Outcome.plainEntries_cons o outs
      rw [hname] at hcons
      refine ⟨?_, ?_, ?_, ?_⟩
      · rw [hcons, hnode, hentries, shownAll]
        cases shown copyOf (place ++ [e.1]) e.2 <;> rfl
      · refine (Node.forall_beneathAll_cons
          (p := fun rest x => CanCopy d route.source copyOf (place ++ rest) x)).mpr ⟨?_, hcans⟩
        simpa using hcan
      · rw [hcons]
        cases hx : o.plain? with
        | none => exact hshorts
        | some x =>
          refine (Node.forall_beneathAll_cons (p := fun rest x =>
            Disk.IsShort (spelledAt route.dest tree (place ++ rest) x) (place ++ rest))).mpr
              ⟨?_, hshorts⟩
          simpa using hshort x hx
      · have htotal : (Outcome.total (o :: outs)).replaced =
            o.stats.replaced + (Outcome.total outs).replaced := by
          rw [Outcome.total_cons]
          rfl
        rw [Node.beneathAll_cons, List.countP_append, List.countP_map, ← hcount, htotal, hreplaced]
        simp [Function.comp_def]

end Shows

section
variable {d : Disk} {route : Route} {src : Place} {mode : Nat} {es : Entries}
  (hs : d.root.IsSound) (hsrc : d.locate route.source = .ok (src, .dir mode es))
include hs hsrc

theorem Meets.of_entry {place here : Place} {node x : Node} (hne : place ≠ [])
    (hx : (Node.dir mode es).get? place = some node)
    (h : Meets d route.source (.entry place node.kind) here x) :
    Disk.IsShort (Path.below route.source place) place ∧
      (node.kind ≠ .link ∧ here = src ++ place ∧ x = node ∨
        ∃ target, node = .link target ∧ SafeLink.isSafe place target = false ∧
          d.resolve (Path.below route.source place) = .ok (here, x) ∧
          d.locate (Disk.pathOf here) = .ok (here, x)) := by
  generalize hkind : node.kind = kind at h
  obtain ⟨hreads, -, -, hnamed, -⟩ := h
  cases hreads with
  | plain hlink hloc =>
    have hnot : node.kind ≠ .link := hkind ▸ hlink
    obtain ⟨hshort, hhere, hnode⟩ := (locate_entry_eq_ok_iff hs hsrc hne hx hnot).mp hloc
    exact ⟨hshort, .inl ⟨hlink, hhere, hnode⟩⟩
  | replaced ht hnotSafe hres =>
    obtain ⟨hshort, hnode⟩ := (readLink_entry_eq_ok_iff hs hsrc hne hx).mp ht
    exact ⟨hshort, .inr ⟨_, hnode, hnotSafe, hres, hnamed place rfl⟩⟩

/-- Whatever comes of an entry is the view of it, with expansions in the place of links. -/
theorem Renders.shows {copyOf : Place → Node}
    (hcopy : ∀ place here node x, d.resolve (Path.below route.source place) = .ok (here, x) →
      Expands d (Disk.pathOf here) node → copyOf place = node)
    {o : Outcome} (h : Renders d route o) {place : Place} {node : Node} (hne : place ≠ [])
    (hx : (Node.dir mode es).get? place = some node) (htask : o.task = .entry place node.kind) :
    Shows d route (.dir mode es) copyOf place node o := by
  induction h generalizing place node with
  | @leaf task node? h hleaf hshort =>
    subst htask
    generalize ([] : List Task) = more at h
    cases h with
    | skipped h =>
      obtain ⟨rfl, hkind⟩ := Task.entry.inj h
      cases node with
      | special kind => exact .of_leaf rfl hleaf rfl trivial nofun rfl
      | _ => cases hkind
    | kept h ht hsafe =>
      obtain ⟨rfl, -⟩ := Task.entry.inj h
      obtain ⟨hpath, rfl⟩ := (readLink_entry_eq_ok_iff hs hsrc hne hx).mp ht
      refine .of_leaf rfl hleaf ?_ ⟨hpath, fun hnotSafe => ?_⟩ hshort ?_
      · simp [shown, hsafe, Node.moded]
      · rw [hsafe] at hnotSafe
        cases hnotSafe
      · simp [IsUnsafe, hsafe]
        rfl
    | filled hmeets hdata =>
      obtain ⟨hpath, ⟨-, -, rfl⟩ | ⟨target, rfl, hnotSafe, hres, hloc⟩⟩ :=
        hmeets.of_entry hs hsrc hne hx
      · refine .of_leaf rfl hleaf (congrArg some (Node.plain_copied ..)) ⟨hpath, fun hread => ?_⟩
          hshort rfl
        rw [Disk.contents, if_pos hread] at hdata
        cases hdata
      · have hexpands := Expands.file hloc hdata
        have hcopied := hcopy _ _ _ _ hres hexpands
        refine .of_leaf rfl hleaf ?_ ⟨hpath, fun _ => ⟨_, _, hres, hcopied ▸ hexpands⟩⟩
          hshort ?_
        · simp [shown, hnotSafe, hcopied, Node.plain_copied]
        · simp [IsUnsafe, hnotSafe]
          rfl
    | opened => exact absurd (hleaf _ rfl) (by simp [Node.isDir])
  | @dir task here mode' es' outs hmeets hshort htasks houts ih =>
    subst htask
    obtain ⟨hpath, ⟨-, rfl, rfl⟩ | ⟨target, rfl, hnotSafe, hres, hloc⟩⟩ :=
      hmeets.of_entry hs hsrc hne hx
    · have hchildren : ∀ o ∈ outs, ∀ e ∈ es', o.task = .entry (place ++ [e.1]) e.2.kind →
          Shows d route (.dir mode es) copyOf (place ++ [e.1]) e.2 o :=
        fun o ho e he htask => ih o ho (by simp) (get?_child hs hsrc hx he) htask
      obtain ⟨hentries, hcans, hshorts, hreplaced⟩ := Shows.all htasks hchildren
      have hself : spelledAt route.dest (.dir mode es) place
          (.dir 0o755 (Outcome.plainEntries outs)) = Path.below route.dest place := by
        rw [spelledAt.eq_def, hx]
      refine ⟨by rw [shown, ← hentries]; rfl, ?_, ?_, ?_⟩
      · rw [Node.nodes_dir, List.forall_mem_cons, List.append_nil]
        exact ⟨hpath, hcans⟩
      · rintro _ ⟨⟩
        change ∀ e ∈ (Node.dir 0o755 (Outcome.plainEntries outs)).nodes, _
        rw [Node.nodes_dir, List.forall_mem_cons, List.append_nil, hself]
        exact ⟨hshort, hshorts⟩
      · rw [Node.nodes_dir, List.countP_cons, ← hreplaced]
        show 0 + _ = _
        simp [IsUnsafe]
    · obtain ⟨hexpands, hbelow⟩ := Expands.of_visits hloc htasks
        fun o ho n kind htask => (houts o ho).visits htask
      have hcopied := hcopy _ _ _ _ hres hexpands
      have hinner : (Outcome.total outs).replaced = 0 := by
        refine Outcome.replaced_total_eq_zero fun o ho => ?_
        obtain ⟨e, -, he⟩ := Outcome.exists_of_mem htasks ho
        exact (houts o ho).replaced_inner he
      refine ⟨?_, ?_, ?_, ?_⟩
      · rw [shown, hnotSafe, hcopied]
        rfl
      · rw [Node.nodes_of_not_dir rfl, List.forall_mem_singleton, List.append_nil]
        exact ⟨hpath, fun _ => ⟨_, _, hres, hcopied ▸ hexpands⟩⟩
      · rintro _ ⟨⟩
        change ∀ e ∈ (Node.dir 0o755 (Outcome.plainEntries outs)).nodes, _
        rw [Node.nodes_dir, List.forall_mem_cons, List.append_nil, spelledAt_of_link hx]
        refine ⟨hshort, fun e he => ?_⟩
        rw [spelledAt_below_link hx (Node.ne_nil_of_mem_beneathAll he)]
        exact hbelow e he
      · rw [Node.nodes_of_not_dir rfl, List.countP_singleton, List.append_nil]
        show 1 + (Outcome.total outs).replaced = _
        simp [IsUnsafe, hnotSafe, hinner]

end

/-! ### What a copy makes -/

section
variable {d : Disk} {route : Route} {src : Place} {mode : Nat} {es : Entries}
  {outs : List Outcome} (hs : d.root.IsSound)
  (hsrc : d.locate route.source = .ok (src, .dir mode es))
  (htasks : outs.map Outcome.task = es.map fun e => Task.entry [e.1] e.2.kind)
  (houts : ∀ o ∈ outs, Renders d route o)
include hs hsrc htasks houts

end

/-- A path of a directory in the root that is as long as a path may be. -/
def lengthy (n : UInt8) : Bytes := List.replicate 4094 Path.slash ++ [n]

end Depot.Archive
