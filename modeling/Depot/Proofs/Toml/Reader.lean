import Depot.Proofs.Toml.Text
import Depot.Text.Lines
import Mathlib.Data.List.TakeDrop

/-!
Reading a document line by line. A statement is read for what follows it in the text, and adds to the
entries by `Entries.set` at the last element of each array of tables on its path.
-/

namespace Depot.Toml

/-! ### Entries -/

namespace Entries

variable {key other : Key} {value : Value} {es : Entries}

@[simp] theorem find?_set_self (key : Key) (value : Value) (es : Entries) :
    find? key (set key value es) = some value := by
  induction es with
  | nil => simp [set, find?]
  | cons e es ih =>
    obtain ⟨k, v⟩ := e
    rw [set]
    split_ifs with h
    · simp [find?]
    · rw [find?, if_neg h, ih]

@[simp] theorem set_set (key : Key) (value value' : Value) (es : Entries) :
    set key value' (set key value es) = set key value' es := by
  induction es with
  | nil => simp [set]
  | cons e es ih =>
    obtain ⟨k, v⟩ := e
    rw [set, set]
    split_ifs with h
    · rw [set, if_pos rfl]
    · rw [set, if_neg h, ih]

theorem addValue_new (h : find? key es = none) (value : Value) :
    addValue [] key value .defined es = some (set key value es) := by
  simp [addValue, descend_nil, h]

theorem startTable_new (h : find? key es = none) :
    startTable [] key es = some (set key (.table .defined []) es) := by
  simp [startTable, descend_nil, h]

theorem descend_tables {isDotted : Bool} {f : Form → Entries → Option Entries} {form : Form}
    {path : List Key} {before : List Entries} {last : Entries}
    (h : find? key es = some (.tables (before ++ [last]))) :
    descend isDotted f (key :: path) form es =
      (descend isDotted f path .defined last).map fun sub =>
        set key (.tables (before ++ [sub])) es := by
  rw [descend, h]
  simp

theorem descend_table {f : Form → Entries → Option Entries} {form : Form}
    {path : List Key} {sub : Entries} (h : find? key es = some (.table .defined sub)) :
    descend false f (key :: path) form es =
      (descend false f path .defined sub).map fun sub => set key (.table .defined sub) es := by
  rw [descend, h]
  simp

/-- The entries `es` with an array of tables, if it has elements. -/
def withTables (key : Key) (elements : List Entries) (es : Entries) : Entries :=
  if elements = [] then es else set key (.tables elements) es

theorem withTables_append (key : Key) (elements : List Entries) (last : Entries) (es : Entries) :
    withTables key (elements ++ [last]) es = set key (.tables (elements ++ [last])) es := by
  simp [withTables]

theorem find?_withTables_append (key : Key) (elements : List Entries) (last : Entries)
    (es : Entries) :
    find? key (withTables key (elements ++ [last]) es) = some (.tables (elements ++ [last])) := by
  rw [withTables_append, find?_set_self]

theorem descend_withTables {isDotted : Bool} {f : Form → Entries → Option Entries} {form : Form}
    {path : List Key} {before : List Entries} {last : Entries} :
    descend isDotted f (key :: path) form (withTables key (before ++ [last]) es) =
      (descend isDotted f path .defined last).map fun sub =>
        withTables key (before ++ [sub]) es := by
  rw [descend_tables (find?_withTables_append key before last es)]
  simp only [withTables_append, set_set]

theorem startElement_withTables (h : find? key es = none) (elements : List Entries) :
    startElement [] key (withTables key elements es) =
      some (withTables key (elements ++ [[]]) es) := by
  rw [withTables_append, withTables, startElement, descend]
  split_ifs with hempty
  · rw [h, hempty]
    rfl
  · rw [find?_set_self]
    simp

theorem startElement_below {path : List Key} {before : List Entries} {last : Entries} :
    startElement (other :: path) key (withTables other (before ++ [last]) es) =
      (startElement path key last).map fun sub => withTables other (before ++ [sub]) es :=
  descend_withTables

end Entries

/-! ### Keys and ends of lines -/

/-- A key that needs no quotes. -/
def IsBare (name : Key) : Prop := name ≠ [] ∧ name.all isBareKey = true

instance (name : Key) : Decidable (IsBare name) := inferInstanceAs (Decidable (_ ∧ _))

theorem IsBare.isBareKey {name : Key} (h : IsBare name) : ∀ c ∈ name, isBareKey c = true :=
  List.all_eq_true.mp h.2

theorem isBareKey_plain {c : Char} (h : isBareKey c = true) :
    isSpace c = false ∧ c ≠ '"' ∧ c ≠ '\'' ∧ c ≠ '[' ∧ c ≠ '#' ∧ c ≠ '\n' ∧ c ≠ '\r' := by
  refine ⟨?_, ?_, ?_, ?_, ?_, ?_, ?_⟩
  · rw [isSpace, Bool.or_eq_false_iff, decide_eq_false_iff_not, decide_eq_false_iff_not]
    constructor <;> rintro rfl <;> cases h
  all_goals rintro rfl; cases h

theorem skipSpace_cons {c : Char} (h : isSpace c = false) (cs : List Char) :
    skipSpace (c :: cs) = c :: cs := by
  rw [skipSpace, List.dropWhile_cons_of_neg (by simp [h])]

theorem span_bare {name rest : List Char} (hname : ∀ c ∈ name, isBareKey c = true)
    (hrest : ∀ c ∈ rest.head?, isBareKey c = false) :
    (name ++ rest).span isBareKey = (name, rest) := by
  rw [List.span_eq_takeWhile_dropWhile, List.takeWhile_append_of_pos hname,
    List.dropWhile_append_of_pos hname]
  cases rest with
  | nil => simp
  | cons c rest =>
    have hc : ¬ isBareKey c = true := by simp [hrest c rfl]
    rw [List.takeWhile_cons_of_neg hc, List.dropWhile_cons_of_neg hc, List.append_nil]

theorem keyPart?_bare {name rest : List Char} (hname : IsBare name)
    (hrest : ∀ c ∈ rest.head?, isBareKey c = false) :
    keyPart? (skipSpace (name ++ rest)) = some (name, rest) := by
  have hspan := span_bare hname.isBareKey hrest
  obtain ⟨c, name, rfl⟩ := List.exists_cons_of_ne_nil hname.1
  obtain ⟨hspace, hdouble, hsingle, -⟩ := isBareKey_plain (hname.isBareKey c (by simp))
  rw [List.cons_append, skipSpace_cons hspace, keyPart?]
  · rw [← List.cons_append, hspan]
    simp
  · simp [hdouble]
  · simp [hsingle]

theorem keyParts?_joinWith {names : List Key} (hne : names ≠ []) (hnames : ∀ n ∈ names, IsBare n)
    {rest : List Char} (hrest : ∀ c ∈ rest.head?, isBareKey c = false)
    (hdot : (skipSpace rest).head? ≠ some '.') {parts : Nat} (hparts : names.length ≤ parts) :
    keyParts? parts (joinWith ['.'] names ++ rest) = some (names, skipSpace rest) := by
  induction names generalizing parts with
  | nil => exact absurd rfl hne
  | cons name names ih =>
    obtain ⟨hname, hnames⟩ := List.forall_mem_cons.mp hnames
    obtain ⟨parts, rfl⟩ : ∃ n, parts = n + 1 := ⟨parts - 1, by simp at hparts; omega⟩
    cases names with
    | nil =>
      rw [joinWith, keyParts?, keyPart?_bare hname hrest]
      simp only [bind_pure_comp, Option.bind_eq_bind, Option.bind_some]
      split
      · next h => simp [h] at hdot
      · rfl
    | cons next names =>
      have hlength : (next :: names).length ≤ parts := by simpa using hparts
      rw [joinWith_cons_cons, List.append_assoc, List.append_assoc, keyParts?,
        keyPart?_bare hname (by simp; decide)]
      simp [skipSpace_cons (c := '.') rfl, ih (List.cons_ne_nil _ _) hnames hlength]

theorem key?_joinWith (path : List Key) {key : Key} (hnames : ∀ n ∈ path ++ [key], IsBare n)
    {rest : List Char} (hrest : ∀ c ∈ rest.head?, isBareKey c = false)
    (hdot : (skipSpace rest).head? ≠ some '.') (hlength : path.length < depthLimit) :
    key? (joinWith ['.'] (path ++ [key]) ++ rest) = some (path, key, skipSpace rest) := by
  rw [key?, keyParts?_joinWith (by simp) hnames hrest hdot (by simpa [Nat.succ_le_iff] using hlength)]
  simp

theorem endOfLine?_newline (rest : List Char) : endOfLine? ('\n' :: rest) = some rest := rfl

/-! ### Statements -/

theorem head_quoted (cs rest : List Char) :
    (∃ body, quoted cs ++ rest = '"' :: body) ∨ ∃ body, quoted cs ++ rest = '\'' :: body := by
  rw [quoted]
  cases styleOf cs
  case basic => exact .inl ⟨_, rfl⟩
  case literal => exact .inr ⟨_, rfl⟩
  case longBasic => exact .inl ⟨_, rfl⟩
  case longLiteral => exact .inr ⟨_, rfl⟩

theorem value?_quoted (depth : Nat) (cs rest : List Char) :
    value? depth (skipSpace (quoted cs ++ '\n' :: rest)) = some (.string cs, '\n' :: rest) := by
  have htext := text_quoted cs ('\n' :: rest) (by simp) (by simp)
  obtain ⟨body, h⟩ | ⟨body, h⟩ := head_quoted cs ('\n' :: rest)
  · rw [h] at htext ⊢
    rw [skipSpace_cons rfl, value?, htext]
    rfl
  · rw [h] at htext ⊢
    rw [skipSpace_cons rfl, value?, htext]
    rfl

namespace Document

variable {doc : Document} {key : Key} {rest : List Char}

theorem statement?_pair (doc : Document) (hkey : IsBare key) {value : List Char} {v : Value}
    (hvalue : value? depthLimit (skipSpace (' ' :: value)) = some (v, '\n' :: rest)) :
    doc.statement? (key ++ ' ' :: '=' :: ' ' :: value) =
      (doc.addValue [] key v).map fun doc => (doc, rest) := by
  have hread : key? (key ++ ' ' :: '=' :: ' ' :: value) = some ([], key, '=' :: ' ' :: value) :=
    key?_joinWith [] (by simpa using hkey) (by simp; decide)
      (by simp [skipSpace, isSpace]) (by decide)
  obtain ⟨c, key, rfl⟩ := List.exists_cons_of_ne_nil hkey.1
  have hbracket := (isBareKey_plain (hkey.isBareKey c (by simp))).2.2.2.1
  rw [List.cons_append, statement?]
  · rw [← List.cons_append, hread]
    simp only [Option.bind_eq_bind, Option.bind_some, char?, if_true, hvalue, endOfLine?_newline]
    cases doc.addValue [] (c :: key) v <;> rfl
  all_goals simp [hbracket]

theorem header?_joinWith {path : List Key} {key : Key} (hnames : ∀ n ∈ path ++ [key], IsBare n)
    (hlength : path.length < depthLimit) (brackets rest : List Char) (hbrackets : ∀ b ∈ brackets, b = ']')
    (hne : brackets ≠ []) :
    header? brackets (joinWith ['.'] (path ++ [key]) ++ (brackets ++ '\n' :: rest)) =
      some (path, key, rest) := by
  obtain ⟨b, brackets, rfl⟩ := List.exists_cons_of_ne_nil hne
  obtain rfl := hbrackets b (by simp)
  have hskip : skipSpace (']' :: brackets ++ '\n' :: rest) = ']' :: brackets ++ '\n' :: rest := 
    skipSpace_cons rfl _
  rw [header?, key?_joinWith path hnames (by simp; decide) (by rw [hskip]; simp) hlength, hskip]
  simp only [Option.bind_eq_bind, Option.bind_some]
  rw [if_pos (by simp), List.drop_left, endOfLine?_newline]
  rfl

theorem joinWith_bare_ne {path : List Key} (hnames : ∀ n ∈ path ++ [key], IsBare n) :
    ∃ c cs, isBareKey c = true ∧ joinWith ['.'] (path ++ [key]) = c :: cs := by
  cases path with
  | nil =>
    have hkey : IsBare key := hnames key (by simp)
    obtain ⟨c, cs, rfl⟩ := List.exists_cons_of_ne_nil hkey.1
    exact ⟨c, cs, hkey.isBareKey c (by simp), rfl⟩
  | cons name path =>
    have hname : IsBare name := hnames name (by simp)
    obtain ⟨c, cs, rfl⟩ := List.exists_cons_of_ne_nil hname.1
    have hc := hname.isBareKey c (by simp)
    cases path with
    | nil => exact ⟨c, _, hc, rfl⟩
    | cons next path => exact ⟨c, _, hc, rfl⟩

theorem statement?_table (doc : Document) {path : List Key}
    (hnames : ∀ n ∈ path ++ [key], IsBare n) (hlength : path.length < depthLimit)
    (rest : List Char) :
    doc.statement? ('[' :: (joinWith ['.'] (path ++ [key]) ++ ']' :: '\n' :: rest)) =
      (doc.entries.startTable path key).map fun es => (⟨es, path ++ [key]⟩, rest) := by
  have hread := header?_joinWith hnames hlength [']'] rest (by simp) (by simp)
  obtain ⟨c, cs, hc, hcs⟩ := joinWith_bare_ne hnames
  have hbracket := (isBareKey_plain hc).2.2.2.1
  rw [List.cons_append, List.nil_append] at hread
  rw [hcs] at hread ⊢
  rw [List.cons_append] at hread ⊢
  rw [statement?]
  · rw [hread]
    cases h : doc.entries.startTable path key <;> simp [h]
  · simp [hbracket]

theorem statement?_element (doc : Document) {path : List Key}
    (hnames : ∀ n ∈ path ++ [key], IsBare n) (hlength : path.length < depthLimit)
    (rest : List Char) :
    doc.statement? ('[' :: '[' :: (joinWith ['.'] (path ++ [key]) ++ ']' :: ']' :: '\n' :: rest)) =
      (doc.entries.startElement path key).map fun es => (⟨es, path ++ [key]⟩, rest) := by
  have hread := header?_joinWith hnames hlength [']', ']'] rest (by simp) (by simp)
  rw [List.cons_append, List.cons_append, List.nil_append] at hread
  rw [statement?, hread]
  cases h : doc.entries.startElement path key <;> simp [h]

/-! ### Values below a header -/

section addValue

variable {es sub last : Entries} {name : Key} {v : Value}

theorem addValue_root (h : Entries.find? key es = none) :
    (⟨es, []⟩ : Document).addValue [] key v = some ⟨es.set key v, []⟩ := by
  rw [addValue, Entries.descend_nil, Entries.addValue_new h]
  rfl

theorem addValue_table (hname : Entries.find? name es = some (.table .defined sub))
    (h : Entries.find? key sub = none) :
    (⟨es, [name]⟩ : Document).addValue [] key v =
      some ⟨es.set name (.table .defined (sub.set key v)), [name]⟩ := by
  rw [addValue, Entries.descend_table hname, Entries.descend_nil, Entries.addValue_new h]
  rfl

theorem addValue_tables {before : List Entries} {path : List Key} :
    (⟨Entries.withTables name (before ++ [last]) es, name :: path⟩ : Document).addValue [] key v =
      ((⟨last, path⟩ : Document).addValue [] key v).map fun doc =>
        ⟨Entries.withTables name (before ++ [doc.entries]) es, name :: path⟩ := by
  rw [addValue, Entries.descend_withTables, addValue, Option.map_map, Option.map_map]
  rfl

end addValue

/-! ### Runs of statements -/

/-- From `doc` on, the text gives the entries `es`. -/
def Reads (doc : Document) (cs : List Char) (es : Entries) : Prop :=
  ∀ fuel, cs.length < fuel → (statements? fuel doc cs).map (·.entries) = some es

variable {es : Entries}

theorem reads_nil (doc : Document) : Reads doc [] doc.entries := by
  intro fuel hfuel
  obtain ⟨fuel, rfl⟩ : ∃ n, fuel = n + 1 := ⟨fuel - 1, by omega⟩
  rfl

theorem Reads.blank (h : Reads doc rest es) : Reads doc ('\n' :: rest) es := by
  intro fuel hfuel
  rw [List.length_cons] at hfuel
  obtain ⟨fuel, rfl⟩ : ∃ n, fuel = n + 1 := ⟨fuel - 1, by omega⟩
  have hrest := h (fuel + 1) (by omega)
  rwa [statements?, skipLines?, ← statements?]

/-- One statement, which is on no blank line, and then the others. -/
theorem Reads.statement {doc' : Document} {c : Char} {cs : List Char} (h : Reads doc' rest es)
    (hc : isSpace c = false ∧ c ≠ '#' ∧ c ≠ '\n' ∧ c ≠ '\r')
    (hstatement : doc.statement? (c :: cs) = some (doc', rest))
    (hlength : rest.length < (c :: cs).length) : Reads doc (c :: cs) es := by
  intro fuel hfuel
  obtain ⟨fuel, rfl⟩ : ∃ n, fuel = n + 1 := ⟨fuel - 1, by omega⟩
  obtain ⟨hspace, hcomment, hline, hreturn⟩ := hc
  have hskip : skipLines? false (c :: cs) = some (c :: cs) := by
    rw [skipLines?]
    · simp [hcomment, hspace]
    · simp [hline]
    · simp [hreturn]
  rw [statements?, hskip]
  simp only [Option.bind_eq_bind, Option.bind_some, hstatement]
  exact h fuel (by omega)

theorem Reads.pair {doc' : Document} (key : Key) (hkey : IsBare key) {value : List Char} {v : Value}
    (hvalue : value? depthLimit (skipSpace (' ' :: (value ++ '\n' :: rest))) = some (v, '\n' :: rest))
    (hadd : doc.addValue [] key v = some doc') (h : Reads doc' rest es) :
    Reads doc (key ++ ' ' :: '=' :: ' ' :: (value ++ '\n' :: rest)) es := by
  have hstatement := statement?_pair doc hkey hvalue
  obtain ⟨c, name, rfl⟩ := List.exists_cons_of_ne_nil hkey.1
  obtain ⟨hspace, -, -, -, hrest⟩ := isBareKey_plain (hkey.isBareKey c (by simp))
  rw [hadd] at hstatement
  refine h.statement ⟨hspace, hrest⟩ hstatement ?_
  simp
  omega

theorem Reads.quoted {doc' : Document} (key : Key) (hkey : IsBare key) {cs : List Char}
    (hadd : doc.addValue [] key (.string cs) = some doc') (h : Reads doc' rest es) :
    Reads doc (key ++ ' ' :: '=' :: ' ' :: (Toml.quoted cs ++ '\n' :: rest)) es :=
  h.pair key hkey (value?_quoted depthLimit cs rest) hadd

theorem Reads.table (path : List Key) (key : Key) {entries : Entries}
    (hnames : ∀ n ∈ path ++ [key], IsBare n) (hlength : path.length < depthLimit) (hstart : doc.entries.startTable path key = some entries)
    (h : Reads ⟨entries, path ++ [key]⟩ rest es) :
    Reads doc ('[' :: (joinWith ['.'] (path ++ [key]) ++ ']' :: '\n' :: rest)) es := by
  have hstatement := statement?_table doc hnames hlength rest
  rw [hstart] at hstatement
  refine h.statement (by decide) hstatement ?_
  simp
  omega

theorem Reads.element (path : List Key) (key : Key) {entries : Entries}
    (hnames : ∀ n ∈ path ++ [key], IsBare n) (hlength : path.length < depthLimit)
    (hstart : doc.entries.startElement path key = some entries)
    (h : Reads ⟨entries, path ++ [key]⟩ rest es) :
    Reads doc ('[' :: '[' :: (joinWith ['.'] (path ++ [key]) ++ ']' :: ']' :: '\n' :: rest)) es := by
  have hstatement := statement?_element doc hnames hlength rest
  rw [hstart] at hstatement
  refine h.statement (by decide) hstatement ?_
  simp
  omega

/-- A byte order mark is no part of a document that begins with a letter or a bracket. -/
theorem parse?_eq {cs : List Char} (h : Reads {} cs es) (hmark : cs.head? ≠ some '\uFEFF') :
    parse? cs = some es := by
  rw [parse?]
  · exact h _ (Nat.lt_succ_self _)
  · rintro cs rfl
    simp at hmark

end Document

end Depot.Toml
