import Depot.Proofs.Archive.Rendering
import Depot.Proofs.Files.Modes

/-!
The expansion of a directory: the directory with everything below it, without links. There is one as
long as no link leads back to a directory on the way to the link, and then a copy makes just that of a
directory that takes the place of a link, whatever becomes of the bits that let a file be run as its
owner or its group.
-/

namespace Depot.Archive

open Files

/-- What a path leads to, copied without links. Only what is finite has such a copy. -/
inductive Expands (d : Disk) : Bytes → Node → Prop
  | file {path : Bytes} {here : Place} {mode : Nat} {data : Bytes}
    (h : d.locate path = .ok (here, .file mode data))
    (hdata : Disk.contents (.file mode data) = .ok data) :
    Expands d path (.file (Disk.plainMode mode) data)
  | dir {path : Bytes} {here : Place} {mode : Nat} {es copies : Entries}
    (h : d.locate path = .ok (here, .dir mode es))
    (hlinks : ∀ e ∈ es, e.2.kind = .link → ∃ found, d.resolve (Path.join path e.1) = .ok found)
    (hnames : copies.map (·.1) = es.map (·.1))
    (hcopies : ∀ c ∈ copies, Expands d (Path.join path c.1) c.2) :
    Expands d path (.dir 0o755 copies)

namespace Expands

variable {d : Disk} {path path' : Bytes} {node node' : Node} {here : Place} {x x' : Node}

theorem exists_locate (h : Expands d path node) : ∃ here x, d.locate path = .ok (here, x) := by
  cases h with
  | file h => exact ⟨_, _, h⟩
  | dir h => exact ⟨_, _, h⟩

theorem locate_join_unique (hs : d.root.IsSound) {mode : Nat} {es : Entries}
    (h : d.locate path = .ok (here, .dir mode es)) (h' : d.locate path' = .ok (here, .dir mode es))
    {n : Name} (hn : n ∈ es.map (·.1)) {there there' : Place}
    (hloc : d.locate (Path.join path n) = .ok (there, x))
    (hloc' : d.locate (Path.join path' n) = .ok (there', x')) : there' = there ∧ x' = x := by
  have hdir : d.root.IsDirAt (here ++ []) :=
    ⟨mode, es, by rw [List.append_nil]; exact Disk.get?_of_locate_ok h⟩
  have hname : IsName n := by
    obtain ⟨e, he, rfl⟩ := List.mem_map.mp hn
    exact (hs.entries _ _ _ (Disk.get?_of_locate_ok h)).names e he
  have hleads : ∀ {path : Bytes} {there : Place} {x : Node},
      d.locate path = .ok (here, .dir mode es) → d.locate (Path.join path n) = .ok (there, x) →
        Leads d.root (here ++ []) [n] there := by
    intro path there x h hloc
    have hopens := Disk.opens_of_go (Disk.go_of_locate_ok h)
    exact hopens.leads hdir (spells_join hopens.ne_nil hopens.nul hname) (Disk.go_of_locate_ok hloc)
  obtain rfl := (hleads h hloc).unique (hleads h' hloc')
  exact ⟨rfl, Option.some.inj
    ((Disk.get?_of_locate_ok hloc').symm.trans (Disk.get?_of_locate_ok hloc))⟩

/-- A place has one expansion, by whatever path it is reached. -/
theorem unique (hs : d.root.IsSound) (h : Expands d path node) (h' : Expands d path' node')
    (hloc : d.locate path = .ok (here, x)) (hloc' : d.locate path' = .ok (here, x')) :
    node = node' := by
  obtain rfl : x = x' := Option.some.inj
    ((Disk.get?_of_locate_ok hloc).symm.trans (Disk.get?_of_locate_ok hloc'))
  induction h generalizing path' node' here x with
  | file h hdata =>
    obtain ⟨rfl, rfl⟩ := Prod.mk.inj (Except.ok.inj (h.symm.trans hloc))
    cases h' with
    | file h' =>
      obtain ⟨-, heq⟩ := Prod.mk.inj (Except.ok.inj (h'.symm.trans hloc'))
      obtain ⟨rfl, rfl⟩ := Node.file.inj heq
      rfl
    | dir h' => cases (Prod.mk.inj (Except.ok.inj (h'.symm.trans hloc'))).2
  | @dir path here' mode es copies h hlinks hnames hcopies ih =>
    obtain ⟨rfl, rfl⟩ := Prod.mk.inj (Except.ok.inj (h.symm.trans hloc))
    cases h' with
    | file h' => cases (Prod.mk.inj (Except.ok.inj (h'.symm.trans hloc'))).2
    | @dir _ _ mode' es' copies' h' hlinks' hnames' hcopies' =>
      obtain ⟨rfl, heq⟩ := Prod.mk.inj (Except.ok.inj (h'.symm.trans hloc'))
      obtain ⟨rfl, rfl⟩ := Node.dir.inj heq
      -- The copies have the same names in the same order, so they agree one by one.
      have hmap : copies.map (·.1) = copies'.map (·.1) := hnames.trans hnames'.symm
      have hlength : copies.length = copies'.length := by simpa using congrArg List.length hmap
      refine congrArg (Node.dir 0o755) (List.ext_getElem hlength fun i hi hi' => ?_)
      have hfst : copies[i].1 = copies'[i].1 := by
        have := List.getElem_of_eq hmap (i := i) (by simpa using hi)
        simpa using this
      have hmem : copies[i] ∈ copies := List.getElem_mem hi
      have hcopy := hcopies' copies'[i] (List.getElem_mem hi')
      obtain ⟨there, y, hy⟩ := (hcopies _ hmem).exists_locate
      obtain ⟨there', y', hy'⟩ := hcopy.exists_locate
      have hn : copies[i].1 ∈ es'.map (·.1) := hnames ▸ List.mem_map_of_mem hmem
      obtain ⟨rfl, rfl⟩ := locate_join_unique hs hloc hloc' hn hy (hfst ▸ hy')
      exact Prod.ext hfst (ih _ hmem hcopy hy hy')

end Expands

namespace Outcome

/-- The node that came of a task, but for the bits that a copy may lose. -/
def plain? (o : Outcome) : Option Node := o.node?.map Node.plain

/-- The entries that came of the tasks of a directory, but for the bits that a copy may lose. -/
def plainEntries (outs : List Outcome) : Entries := Node.plainAll (entries outs)

theorem plainEntries_cons (o : Outcome) (outs : List Outcome) :
    plainEntries (o :: outs) =
      (o.plain?.toList.map fun node => (o.task.name, node)) ++ plainEntries outs := by
  cases hnode : o.node? <;> simp [plainEntries, entries, plain?, hnode, Node.modedAll_cons]

theorem mem_plainEntries {outs : List Outcome} {e : Name × Node} :
    e ∈ plainEntries outs ↔ ∃ o ∈ outs, o.plain? = some e.2 ∧ o.task.name = e.1 := by
  induction outs with
  | nil => simp [plainEntries, entries, Node.modedAll]
  | cons o outs ih =>
    simp only [plainEntries_cons, List.mem_append, ih, List.mem_cons, or_and_right, exists_or,
      exists_eq_left]
    refine or_congr_left ?_
    cases o.plain? <;> simp [Prod.ext_iff, eq_comm, and_comm]

theorem names_plainEntries {outs : List Outcome}
    (h : ∀ o ∈ outs, ∃ node, o.plain? = some node) :
    (plainEntries outs).map (·.1) = outs.map (·.task.name) := by
  induction outs with
  | nil => rfl
  | cons o outs ih =>
    obtain ⟨node, hnode⟩ := h o List.mem_cons_self
    rw [plainEntries_cons, hnode, List.map_append, List.map_cons,
      ih fun o ho => h o (List.mem_cons_of_mem _ ho)]
    rfl

end Outcome

section
variable {d : Disk} {route : Route} {o : Outcome}

theorem Meets.of_inner {source : Bytes} {v : Visit} {n : Name} {kind : Kind} {here : Place}
    {node : Node} (h : Meets d source (.inner v n kind) here node) :
    d.locate (Path.join v.path n) = .ok (here, node) ∧
      (kind = .link → d.resolve (Path.join v.path n) = .ok (here, node)) := by
  obtain ⟨hreads, -, -, -, hresolved⟩ := h
  cases hreads with
  | inner hway hloc => exact ⟨hloc, fun hkind => hresolved v n (by rw [hkind])⟩

/-- What comes of an entry of a visited directory: its expansion, with paths that are short enough. -/
structure Visits (d : Disk) (dest : Bytes) (v : Visit) (n : Name) (kind : Kind) (node : Node) :
    Prop where
  expands : Expands d (Path.join v.path n) node
  resolves : kind = .link → ∃ found, d.resolve (Path.join v.path n) = .ok found
  kind : kind ≠ .link → ∀ here x, d.locate (Path.join v.path n) = .ok (here, x) →
    (x.isDir = true ↔ kind = .directory)
  short : ∀ e ∈ node.nodes,
    Disk.IsShort (Path.below dest (v.place ++ [n] ++ e.1)) (v.place ++ [n] ++ e.1)

/-- The entries of a visited directory make up its expansion. -/
theorem Expands.of_visits {path dest : Bytes} {here place : Place} {way : List Place} {mode : Nat}
    {es : Entries} {outs : List Outcome} (hloc : d.locate path = .ok (here, .dir mode es))
    (htasks : outs.map Outcome.task = es.map fun e => .inner ⟨way, path, place⟩ e.1 e.2.kind)
    (hvisits : ∀ o ∈ outs, ∀ n kind, o.task = .inner ⟨way, path, place⟩ n kind →
      ∃ node, o.plain? = some node ∧ Visits d dest ⟨way, path, place⟩ n kind node) :
    Expands d path (.dir 0o755 (Outcome.plainEntries outs)) ∧
      ∀ e ∈ Node.beneathAll (Outcome.plainEntries outs),
        Disk.IsShort (Path.below dest (place ++ e.1)) (place ++ e.1) := by
  have hchild : ∀ o ∈ outs, ∃ node, o.plain? = some node ∧
      ∃ kind, Visits d dest ⟨way, path, place⟩ o.task.name kind node := by
    intro o ho
    obtain ⟨e, -, htask⟩ := Outcome.exists_of_mem htasks ho
    obtain ⟨node, hnode, hv⟩ := hvisits o ho _ _ htask
    have hname : o.task.name = e.1 := by rw [htask]; rfl
    exact ⟨node, hnode, _, hname ▸ hv⟩
  have hnames : outs.map (·.task.name) = es.map (·.1) := by
    have hmap := congrArg (List.map Task.name) htasks
    rwa [List.map_map, List.map_map] at hmap
  refine ⟨.dir hloc (fun e he hlink => ?_) ?_ fun c hc => ?_, fun e he => ?_⟩
  · have hmem := List.mem_map_of_mem (f := fun e : Name × Node =>
      Task.inner ⟨way, path, place⟩ e.1 e.2.kind) he
    rw [← htasks] at hmem
    obtain ⟨o, ho, htask⟩ := List.mem_map.mp hmem
    obtain ⟨node, -, hv⟩ := hvisits o ho _ _ htask
    exact hv.resolves hlink
  · rw [Outcome.names_plainEntries fun o ho => ?_, hnames]
    obtain ⟨node, hnode, -⟩ := hchild o ho
    exact ⟨node, hnode⟩
  · obtain ⟨o, ho, hnode, hname⟩ := Outcome.mem_plainEntries.mp hc
    obtain ⟨node, hnode', kind, hv⟩ := hchild o ho
    obtain rfl := Option.some.inj (hnode.symm.trans hnode')
    exact hname ▸ hv.expands
  · obtain ⟨m, child, hmem, hplace⟩ := Node.mem_beneathAll_iff.mp (show (e.1, e.2) ∈ _ from he)
    obtain ⟨o, ho, hnode, rfl⟩ := Outcome.mem_plainEntries.mp hmem
    obtain ⟨node, hnode', kind, hv⟩ := hchild o ho
    obtain rfl := Option.some.inj (hnode.symm.trans hnode')
    obtain ⟨above, x⟩ := e
    rcases hplace with ⟨rfl, rfl⟩ | ⟨rest, rfl, hrest⟩
    · simpa using hv.short _ List.mem_cons_self
    · simpa using hv.short _ (List.mem_cons_of_mem _ hrest)

/-- What comes of a task below a replaced link is the expansion of what its path leads to. -/
theorem Renders.visits (h : Renders d route o) {v : Visit} {n : Name} {kind : Kind}
    (htask : o.task = .inner v n kind) :
    ∃ node, o.plain? = some node ∧ Visits d route.dest v n kind node := by
  have hkind : ∀ {here : Place} {x : Node}, Meets d route.source (.inner v n kind) here x →
      kind ≠ .link → ∀ here' x', d.locate (Path.join v.path n) = .ok (here', x') →
        (x'.isDir = true ↔ kind = .directory) := by
    intro here x hmeets hnot here' x' hloc
    obtain rfl := (Prod.mk.inj (Except.ok.inj (hmeets.of_inner.1.symm.trans hloc))).2
    exact hmeets.kind hnot
  induction h generalizing v n kind with
  | leaf h hleaf hshort =>
    cases htask
    generalize ([] : List Task) = more at h
    cases h with
    | filled hmeets hdata =>
      obtain ⟨hloc, hresolved⟩ := hmeets.of_inner
      refine ⟨_, congrArg some (Node.plain_copied ..), .file hloc hdata,
        fun hlink => ⟨_, hresolved hlink⟩, hkind hmeets, ?_⟩
      intro e he
      obtain rfl := List.mem_singleton.mp he
      rw [List.append_nil]
      exact hshort _ rfl
    | opened => exact absurd (hleaf _ rfl) (by simp [Node.isDir])
    | skipped h => cases h
    | kept h => cases h
  | @dir task here mode es outs hmeets hshort htasks houts ih =>
    cases htask
    obtain ⟨hloc, hresolved⟩ := hmeets.of_inner
    obtain ⟨hexpands, hbelow⟩ := Expands.of_visits hloc htasks
      fun o ho n kind htask => ih o ho htask fun hm hnot here' x' hloc' => by
        obtain rfl := (Prod.mk.inj (Except.ok.inj (hm.of_inner.1.symm.trans hloc'))).2
        exact hm.kind hnot
    refine ⟨_, rfl, hexpands, fun hlink => ⟨_, hresolved hlink⟩, hkind hmeets, fun e he => ?_⟩
    rcases List.mem_cons.mp he with rfl | he
    · rw [List.append_nil]
      exact hshort
    · exact hbelow e he

theorem sizeOf_lt_of_mem {copies : Entries} {c : Name × Node} (hc : c ∈ copies) (mode : Nat) :
    sizeOf c.2 < sizeOf (Node.dir mode copies) := by
  have hlt := List.sizeOf_lt_of_mem hc
  obtain ⟨n, node⟩ := c
  simp only [Prod.mk.sizeOf_spec, Node.dir.sizeOf_spec] at hlt ⊢
  omega

/-- Each directory on a way has an expansion that is larger than the node. -/
def IsPart (d : Disk) (way : List Place) (node : Node) : Prop :=
  ∀ w ∈ way, ∃ path copy x, Expands d path copy ∧ d.locate path = .ok (w, x) ∧
    sizeOf node < sizeOf copy

/-- On the way to the entries of a directory there is also the directory. -/
theorem IsPart.child {path : Bytes} {here : Place} {x : Node} {way : List Place} {copies : Entries}
    {mode : Nat} (h : Expands d path (.dir mode copies)) (hloc : d.locate path = .ok (here, x))
    (hpart : IsPart d way (.dir mode copies)) {c : Name × Node} (hc : c ∈ copies) :
    IsPart d (here :: way) c.2 := by
  intro w hw
  rcases List.mem_cons.mp hw with rfl | hw
  · exact ⟨path, _, x, h, hloc, sizeOf_lt_of_mem hc _⟩
  · obtain ⟨path, copy, y, hcopy, hpath, hlt⟩ := hpart w hw
    exact ⟨path, copy, y, hcopy, hpath, Nat.lt_trans (sizeOf_lt_of_mem hc mode) hlt⟩

end

end Depot.Archive
