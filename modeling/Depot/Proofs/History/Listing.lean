import Depot.Package.Search
import Depot.Proofs.History.Tip
import Depot.Proofs.Text.Decoding
import Mathlib.Data.List.DropRight

/-!
The branches that a repository lists, and the commits that it tells of them. A listed name has lost
the blanks at its end, and a name with a blank or a control character beyond ASCII, which a branch
can have, is refused.
-/

namespace Depot

open Files

section Parts

variable {sep : Char} {part cs : List Char}

/-- What has no separator in it stands in one part, and what follows it there follows it. -/
theorem exists_part (hsep : sep ∉ part) (before after : List Char) :
    ∃ first last, first ++ part ++ last ∈ splitAtSep sep (before ++ part ++ after) ∧ last <+: after := by
  induction before with
  | nil =>
    by_cases hafter : sep ∈ after
    · obtain ⟨last, rest, rfl, hlast⟩ := List.eq_append_cons_of_mem hafter
      refine ⟨[], last, ?_, List.prefix_append last _⟩
      rw [List.nil_append, ← List.append_assoc, splitAtSep_append_cons, splitAtSep_of_notMem (by simp [*])]
      exact List.mem_cons_self
    · refine ⟨[], after, ?_, List.prefix_rfl⟩
      rw [List.nil_append, splitAtSep_of_notMem (by simp [*])]
      exact List.mem_cons_self
  | cons c before ih =>
    obtain ⟨first, last, hmem, hlast⟩ := ih
    rw [List.cons_append, List.cons_append, splitAtSep]
    split_ifs with hc
    · exact ⟨first, last, List.mem_cons_of_mem _ hmem, hlast⟩
    · cases hsplit : splitAtSep sep (before ++ part ++ after) with
      | nil => exact absurd hsplit (splitAtSep_ne_nil sep _)
      | cons whole parts =>
        rw [hsplit] at hmem
        rcases List.mem_cons.mp hmem with rfl | hmem
        · exact ⟨c :: first, last, List.mem_cons_self, hlast⟩
        · exact ⟨first, last, List.mem_cons_of_mem _ hmem, hlast⟩

theorem exists_infix_part (hsep : sep ∉ part) (h : part <:+: cs) :
    ∃ whole ∈ splitAtSep sep cs, part <:+: whole := by
  obtain ⟨before, after, rfl⟩ := h
  obtain ⟨first, last, hmem, -⟩ := exists_part hsep before after
  exact ⟨_, hmem, first, last, rfl⟩

theorem exists_suffix_part (hsep : sep ∉ part) (h : part <:+ cs) :
    ∃ whole ∈ splitAtSep sep cs, part <:+ whole := by
  obtain ⟨before, rfl⟩ := h
  obtain ⟨first, last, hmem, hlast⟩ := exists_part hsep before []
  obtain rfl := List.prefix_nil.mp hlast
  rw [List.append_nil, List.append_nil] at hmem
  exact ⟨_, hmem, first, rfl⟩

/-- Lines that are ended by line feeds alone are read as they are. -/
theorem lines_flatMap {parts : List (List Char)}
    (h : ∀ part ∈ parts, '\n' ∉ part ∧ part.getLast? ≠ some '\r') :
    lines (parts.flatMap fun part => part ++ ['\n']) = parts := by
  induction parts with
  | nil => rfl
  | cons part parts ih =>
    obtain ⟨⟨hfeed, hreturn⟩, hparts⟩ := List.forall_mem_cons.mp h
    have hrest := ih hparts
    rw [lines] at hrest
    rw [lines, List.flatMap_cons, List.append_assoc, List.singleton_append, splitAtSep_append_cons,
      splitAtSep_of_notMem hfeed, List.singleton_append]
    cases hsplit : splitAtSep '\n' (parts.flatMap fun part => part ++ ['\n']) with
    | nil => exact absurd hsplit (splitAtSep_ne_nil _ _)
    | cons first others =>
      rw [hsplit] at hrest
      rw [endLines, hrest, dropReturn, if_neg hreturn]
      simp

end Parts

namespace Octets

theorem toBytes_ofBytes (bs : Bytes) : toBytes (ofBytes bs) = bs := by
  rw [toBytes, ofBytes, List.map_map]
  conv_rhs => rw [← List.map_id bs]
  refine List.map_congr_left fun b _ => ?_
  have hvalid : b.toNat.isValidChar := .inl (by have := b.toNat_lt; omega)
  rw [Function.comp_apply, Char.ofNat, dif_pos hvalid]
  exact UInt8.ofNat_toNat

def ofChars (cs : List Char) : Octets := ofBytes (Utf8.encode cs)

variable {cs ds : List Char}

theorem ofChars_append (cs ds : List Char) : ofChars (cs ++ ds) = ofChars cs ++ ofChars ds := by
  simp [ofChars, ofBytes, Utf8.encode]

theorem ofChars_ascii (h : ∀ c ∈ cs, c.toNat < 0x80) : ofChars cs = cs := by
  induction cs with
  | nil => rfl
  | cons c cs ih =>
    obtain ⟨hc, hcs⟩ := List.forall_mem_cons.mp h
    have hone : ofChars [c] = [c] := by
      have hb : (UInt8.ofNat c.toNat).toNat = c.toNat := Utf8.toNat_byte (by omega)
      simp [ofChars, ofBytes, Utf8.encode, Utf8.encodeChar_ascii hc, hb]
    rw [← List.singleton_append, ofChars_append, hone, ih hcs]

theorem infix_ofChars (hds : ∀ d ∈ ds, d.toNat < 0x80) (h : ds <:+: cs) : ds <:+: ofChars cs := by
  obtain ⟨before, after, rfl⟩ := h
  refine ⟨ofChars before, ofChars after, ?_⟩
  rw [ofChars_append, ofChars_append, ofChars_ascii hds]

theorem suffix_ofChars (hds : ∀ d ∈ ds, d.toNat < 0x80) (h : ds <:+ cs) : ds <:+ ofChars cs := by
  obtain ⟨before, rfl⟩ := h
  refine ⟨ofChars before, ?_⟩
  rw [ofChars_append, ofChars_ascii hds]

theorem mem_ofChars {c : Char} (hc : c.toNat < 0x80) (h : c ∈ cs) : c ∈ ofChars cs := by
  obtain ⟨before, after, rfl⟩ := List.append_of_mem h
  have hin : [c] <:+: before ++ c :: after := ⟨before, after, by simp⟩
  exact (infix_ofChars (by simpa using hc) hin).subset List.mem_cons_self

end Octets

namespace RefName

variable {name : Octets} {branch : String}

theorem ofBranch_eq (branch : String) :
    ofBranch branch = History.headsPrefix ++ Octets.ofChars branch.toList := by
  have hprefix : octets "refs/heads/" = History.headsPrefix := by decide
  rw [ofBranch, octets_append, hprefix]
  rfl

/-- What no part can have in it is nowhere in a valid name. -/
theorem not_infix_of_isValid (h : isValid name = true) : ¬ ['.', '.'] <:+: name ∧
    ¬ ['@', '\x7b'] <:+: name := by
  constructor <;> intro hin
  · obtain ⟨part, hpart, hin⟩ := exists_infix_part (by decide : '/' ∉ ['.', '.']) hin
    have hp := isPart_of_mem h hpart
    rw [← occursIn_iff_infix] at hin
    simp [isPart, hin] at hp
  · obtain ⟨part, hpart, hin⟩ := exists_infix_part (by decide : '/' ∉ ['@', '\x7b']) hin
    have hp := isPart_of_mem h hpart
    rw [← occursIn_iff_infix] at hin
    simp [isPart, hin] at hp

theorem not_lock_of_isValid (h : isValid name = true) : ¬ octets ".lock" <:+ name := by
  intro hin
  obtain ⟨part, hpart, hin⟩ := exists_suffix_part (by decide : '/' ∉ octets ".lock") hin
  have hp := isPart_of_mem h hpart
  rw [← List.isSuffixOf_iff_suffix] at hin
  simp [isPart, hin] at hp

/-- No part of a valid name is empty. -/
theorem not_slashes_of_isValid (h : isValid name = true) :
    ¬ ['/', '/'] <:+: name ∧ ¬ ['/'] <:+ name := by
  have hne : [] ∉ splitAtSep '/' name := by
    intro hmem
    have hp := isPart_of_mem h hmem
    simp [isPart] at hp
  constructor
  · rintro ⟨before, after, rfl⟩
    refine hne ?_
    rw [List.append_assoc, List.cons_append, splitAtSep_append_cons]
    refine List.mem_append_right _ ?_
    simp [splitAtSep]
  · rintro ⟨before, rfl⟩
    refine hne ?_
    rw [splitAtSep_append_cons]
    simp [splitAtSep]

theorem not_isForbidden_of_mem (h : isValid name = true) {c : Char} (hc : c ∈ name) :
    isForbidden c = false := by
  rw [← joinWith_splitAtSep '/' name] at hc
  rcases mem_joinWith hc with hc | ⟨part, hpart, hc⟩
  · rw [List.mem_singleton.mp hc]
    rfl
  · have hp := isPart_of_mem h hpart
    simp only [isPart, Bool.and_eq_true, Bool.not_eq_true', List.any_eq_false] at hp
    simpa using hp.1.1.2 c hc

theorem not_isForbidden_of_mem_branch (h : isValid (ofBranch branch) = true) {c : Char}
    (hc : c.toNat < 0x80) (hmem : c ∈ branch.toList) : isForbidden c = false := by
  refine not_isForbidden_of_mem h ?_
  rw [ofBranch_eq]
  exact List.mem_append_right _ (Octets.mem_ofChars hc hmem)

end RefName

namespace Branch

variable {name : String}

/-- No blank and no control character is in a name. -/
def isPlain (name : String) : Bool := !name.toList.any fun c => isBlank c || isControl c

/-- All that can be wrong with the name of a branch that is there is its first character, or that it
is not plain. -/
theorem fault?_of_isValid (h : RefName.isValid (RefName.ofBranch name) = true)
    (hdash : ¬ ['-'] <+: name.toList) :
    fault? name.toList = if isPlain name then none else some .character := by
  have hforbidden : ∀ {c : Char}, c.toNat < 0x80 → c ∈ name.toList → RefName.isForbidden c = false :=
    RefName.not_isForbidden_of_mem_branch h
  rw [RefName.ofBranch_eq] at h
  obtain ⟨hdots, hat⟩ := RefName.not_infix_of_isValid h
  obtain ⟨hslashes, hslash⟩ := RefName.not_slashes_of_isValid h
  have hlock := RefName.not_lock_of_isValid h
  have hempty : name.toList ≠ [] := by
    intro hnil
    rw [hnil] at hslash
    exact hslash (by decide)
  have hpart : ∀ {part : List Char}, (∀ c ∈ part, c.toNat < 0x80) → part <:+: name.toList →
      part <:+: History.headsPrefix ++ Octets.ofChars name.toList := fun hascii hin =>
    (Octets.infix_ofChars hascii hin).trans (List.suffix_append ..).isInfix
  have hend : ∀ {part : List Char}, (∀ c ∈ part, c.toNat < 0x80) → part <:+ name.toList →
      part <:+ History.headsPrefix ++ Octets.ofChars name.toList := fun hascii hin =>
    (Octets.suffix_ofChars hascii hin).trans (List.suffix_append ..)
  have hstart : ¬ ['/'] <+: name.toList := by
    rintro ⟨rest, hrest⟩
    rw [← hrest, Octets.ofChars_append,
      Octets.ofChars_ascii (forall_mem_of_all (by decide) : ∀ c ∈ ['/'], c.toNat < 0x80)] at hslashes
    exact hslashes ⟨"refs/heads".toList, Octets.ofChars rest, rfl⟩
  have hcomponent : ¬ (['/'].isPrefixOf name.toList ∨ ['/'].isSuffixOf name.toList ∨
      occursIn ['/', '/'] name.toList) := by
    rw [List.isPrefixOf_iff_prefix, List.isSuffixOf_iff_suffix, occursIn_iff_infix]
    rintro (hin | hin | hin)
    · exact hstart hin
    · exact hslash (hend (forall_mem_of_all (by decide)) hin)
    · exact hslashes (hpart (forall_mem_of_all (by decide)) hin)
  have hsequence : ¬ (occursIn ['.', '.'] name.toList ∨ occursIn ['@', '\x7b'] name.toList ∨
      ".lock".toList.isSuffixOf name.toList) := by
    rw [List.isSuffixOf_iff_suffix, occursIn_iff_infix, occursIn_iff_infix]
    rintro (hin | hin | hin)
    · exact hdots (hpart (forall_mem_of_all (by decide)) hin)
    · exact hat (hpart (forall_mem_of_all (by decide)) hin)
    · exact hlock (hend (forall_mem_of_all (by decide)) hin)
  have hcharacter : name.toList.any isForbidden = !isPlain name := by
    rw [isPlain, Bool.not_not, Bool.eq_iff_iff]
    simp only [List.any_eq_true]
    refine exists_congr fun c => and_congr_right fun hc => ?_
    have hnot : c ∉ ['~', '^', ':', '?', '*', '[', '\\'] := by
      intro hmem
      have hgit := (forall_mem_of_all (by decide) :
        ∀ c ∈ ['~', '^', ':', '?', '*', '[', '\\'],
          c.toNat < 0x80 ∧ RefName.isForbidden c = true) c hmem
      rw [hforbidden hgit.1 hc] at hgit
      cases hgit.2
    simp [isForbidden, hnot]
  rw [fault?, if_neg hempty, if_neg (by rwa [List.isPrefixOf_iff_prefix]), if_neg hcomponent,
    if_neg hsequence, hcharacter]
  cases isPlain name <;> rfl

theorem validate_of_isValid (h : RefName.isValid (RefName.ofBranch name) = true)
    (hdash : ¬ ['-'] <+: name.toList) : validate name =
      if isPlain name then .ok () else .error (.branchInvalid name Fault.character.reason) := by
  rw [validate, fault?_of_isValid h hdash]
  cases isPlain name <;> rfl

theorem isBlank_of_isPlain (h : isPlain name = true) {c : Char} (hc : c ∈ name.toList) :
    isBlank c = false := by
  rw [isPlain, Bool.not_eq_true', List.any_eq_false] at h
  have hnot := h c hc
  rw [Bool.not_eq_true, Bool.or_eq_false_iff] at hnot
  exact hnot.1

/-- A name without the blanks at its end. -/
def trimmedEnd (name : String) : String := String.ofList (name.toList.rdropWhile isBlank)

theorem trimmedEnd_eq_self_iff :
    trimmedEnd name = name ↔ ∀ c, name.toList.getLast? = some c → isBlank c = false := by
  rw [← String.toList_inj, trimmedEnd, String.toList_ofList, List.rdropWhile_eq_self_iff]
  constructor
  · intro h c hc
    have hne : name.toList ≠ [] := by
      rintro hnil
      rw [hnil] at hc
      cases hc
    have hlast := h hne
    rw [List.getLast?_eq_some_getLast hne] at hc
    rw [Option.some.inj hc] at hlast
    simpa using hlast
  · intro h hne
    simpa using h _ (List.getLast?_eq_some_getLast hne)

end Branch

theorem Finished.output_of_success (out err : Bytes) (command : String) :
    (⟨out, err, some 0⟩ : Finished).output command = .ok (String.ofList (Utf8.lossy out)) := by
  simp [output]

namespace World

/-- The repository in a directory lists these branches, in this order, and they are at these
commits, which it has. -/
def HasBranches (w : World) (dir : Bytes) (branches : List (String × CommitId)) : Prop :=
  ∃ t, Refs.table w.disk dir = .ok t ∧
    t.names (octets "refs/heads") = .ok (branches.map fun b => RefName.ofBranch b.1) ∧
    ∀ b ∈ branches, ∃ id, t.id? (RefName.ofBranch b.1) = .ok (some id) ∧
      w.knows dir id = true ∧ b.2 = ⟨String.ofList id⟩

variable {w : World} {repo dir : Bytes} {branches : List (String × CommitId)} {b : String × CommitId}

theorem HasBranches.isValid (h : w.HasBranches dir branches) (hb : b ∈ branches) :
    RefName.isValid (RefName.ofBranch b.1) = true := by
  obtain ⟨t, -, -, hids⟩ := h
  obtain ⟨id, hid, -, -⟩ := hids b hb
  exact (Refs.Table.of_follow (Refs.Table.of_id? hid)).2

theorem HasBranches.tipOf (h : w.HasBranches dir branches) (hb : b ∈ branches) :
    ∃ id, Refs.IsId id ∧ b.2 = ⟨String.ofList id⟩ ∧
      w.tipOf dir b.1 = .said (String.ofList id ++ "\n") := by
  obtain ⟨t, htable, -, hids⟩ := h
  obtain ⟨id, hid, hknows, hcommit⟩ := hids b hb
  refine ⟨id, (Refs.Table.of_follow (Refs.Table.of_id? hid)).1, hcommit, ?_⟩
  have hmeaning : meaning? w.disk dir (RefName.ofBranch b.1) = .ok (some id) := by
    simp only [meaning?, htable, RefName.expansions, Refs.Table.first?, hid, bind, Except.bind, pure,
      Except.pure, Option.map_some]
  rw [World.tipOf, hmeaning]
  exact if_pos hknows

/-- What is printed of a branch is its full name, on a line of its own. -/
theorem HasBranches.listing (h : w.HasBranches dir branches) :
    w.listing dir = ⟨Utf8.encode ((branches.map fun b => History.headsPrefix ++ b.1.toList).flatMap
      fun line => line ++ ['\n']), [], some 0⟩ := by
  obtain ⟨t, htable, hnames, -⟩ := h
  have hline : ∀ name : String, Octets.toBytes (RefName.ofBranch name ++ ['\n']) =
      Utf8.encode (History.headsPrefix ++ name.toList ++ ['\n']) := by
    intro name
    rw [← Octets.toBytes_ofBytes (Utf8.encode _)]
    congr 1
    show _ = Octets.ofChars _
    rw [RefName.ofBranch_eq, Octets.ofChars_append, Octets.ofChars_append,
      Octets.ofChars_ascii (forall_mem_of_all (by decide) : ∀ c ∈ ['\n'], c.toNat < 0x80),
      Octets.ofChars_ascii (forall_mem_of_all (by decide) : ∀ c ∈ History.headsPrefix, c.toNat < 0x80)]
  rw [World.listing, htable]
  simp only [bind, Except.bind, hnames]
  congr 1
  rw [List.flatMap_map, List.flatMap_map]
  simp only [hline]
  rw [Utf8.encode, List.flatMap_assoc]
  rfl

end World

namespace History

variable {w : World} {repo dir : Bytes} {branches : List (String × CommitId)}

theorem branchOfLine?_heads (name : String) :
    branchOfLine? (headsPrefix ++ name.toList) = some (Branch.trimmedEnd name) := by
  have htrim : trimBlank (headsPrefix ++ name.toList) =
      headsPrefix ++ name.toList.rdropWhile isBlank := by
    have hfront : (headsPrefix ++ name.toList).dropWhile isBlank = headsPrefix ++ name.toList := rfl
    rw [trimBlank, hfront, List.reverse_append, List.dropWhile_append]
    split_ifs with hall
    · rw [List.rdropWhile, List.isEmpty_iff.mp hall]
      rfl
    · rw [List.reverse_append, List.reverse_reverse]
      rfl
  rw [branchOfLine?, htrim]
  simp [Branch.trimmedEnd]

theorem isLine_of_isValid {name : String} (h : RefName.isValid (RefName.ofBranch name) = true) :
    '\n' ∉ headsPrefix ++ name.toList ∧ (headsPrefix ++ name.toList).getLast? ≠ some '\r' := by
  have hnot : ∀ c ∈ ['\n', '\r'], c ∉ headsPrefix ++ name.toList := by
    intro c hc hmem
    have hgit := (forall_mem_of_all (by decide) : ∀ c ∈ ['\n', '\r'],
      c.toNat < 0x80 ∧ c ∉ headsPrefix ∧ RefName.isForbidden c = true) c hc
    rcases List.mem_append.mp hmem with hmem | hmem
    · exact hgit.2.1 hmem
    · rw [RefName.not_isForbidden_of_mem_branch h hgit.1 hmem] at hgit
      cases hgit.2.2
  exact ⟨hnot _ (by simp), fun hlast => hnot _ (by simp) (List.mem_of_getLast? hlast)⟩

/-- The listed names are those of the branches, without the blanks at their ends. -/
theorem branches_of_hasBranches (hf : w.faults = []) (hdir : Repository.find? w.disk repo = some dir)
    (h : w.HasBranches dir branches) :
    History.branches repo w = (w, .ok (branches.map fun b => Branch.trimmedEnd b.1)) := by
  have hrun : w.runUndisturbed (.branches repo) = (w, w.listing dir) := by
    unfold World.runUndisturbed
    dsimp only
    rw [hdir]
  have hlines : ∀ line ∈ branches.map fun b => headsPrefix ++ b.1.toList,
      '\n' ∉ line ∧ line.getLast? ≠ some '\r' := by
    intro line hline
    obtain ⟨b, hb, rfl⟩ := List.mem_map.mp hline
    exact isLine_of_isValid (h.isValid hb)
  rw [History.branches, World.git_eq hf, hrun, h.listing, Finished.output_of_success,
    Utf8.lossy_encode]
  dsimp only
  rw [String.toList_ofList, lines_flatMap hlines, List.filterMap_map]
  have hread : branchOfLine? ∘ (fun b : String × CommitId => headsPrefix ++ b.1.toList) =
      some ∘ fun b => Branch.trimmedEnd b.1 := funext fun b => branchOfLine?_heads b.1
  rw [hread, ← List.filterMap_map, List.filterMap_some]

theorem tip_of_hasBranches (hf : w.faults = []) (hdir : Repository.find? w.disk repo = some dir)
    (h : w.HasBranches dir branches) {b : String × CommitId} (hb : b ∈ branches)
    (hdash : ¬ ['-'] <+: b.1.toList) :
    tip repo b.1 w = (w, if Branch.isPlain b.1 then .ok b.2
      else .error (.branchInvalid b.1 Branch.Fault.character.reason)) := by
  have hvalidate := Branch.validate_of_isValid (h.isValid hb) hdash
  split_ifs with hplain
  · rw [if_pos hplain] at hvalidate
    obtain ⟨id, hid, hcommit, htip⟩ := h.tipOf hb
    have hrun : w.runUndisturbed (.tip repo b.1) = (w, .said (String.ofList id ++ "\n")) := by
      unfold World.runUndisturbed
      dsimp only
      rw [hdir, ← htip]
    exact hcommit ▸ tip_of_said hf hvalidate hid hrun
  · rw [tip, hvalidate, if_neg hplain]

/-- Every branch is listed once, in the order of the repository, under its name without the blanks
at its end; so the list is that of the names as long as none ends with a blank. Its commit is told
if no blank and no control character is in the name. Otherwise the name is refused, and no revision
is looked for. -/
theorem branches_and_tips (hf : w.faults = []) (hdir : Repository.find? w.disk repo = some dir)
    (h : w.HasBranches dir branches) (hdash : ∀ b ∈ branches, ¬ ['-'] <+: b.1.toList) :
    History.branches repo w = (w, .ok (branches.map fun b => Branch.trimmedEnd b.1)) ∧
      (History.branches repo w = (w, .ok (branches.map Prod.fst)) ↔
        ∀ b ∈ branches, ∀ c, b.1.toList.getLast? = some c → isBlank c = false) ∧
      ∀ b ∈ branches,
        (Branch.isPlain b.1 = true → Branch.trimmedEnd b.1 = b.1 ∧ tip repo b.1 w = (w, .ok b.2)) ∧
        (Branch.isPlain b.1 = false →
          tip repo b.1 w =
            (w, .error (.branchInvalid b.1 "contains a character git does not allow")) ∧
          ∀ (σ : Type) (source : Source σ) (s : σ) (location : Location),
            BranchHandle.revision ⟨location, b.1⟩ source s = (s, .ok none)) := by
  have hlist := branches_of_hasBranches hf hdir h
  refine ⟨hlist, ?_, fun b hb => ?_⟩
  · rw [hlist, Prod.mk.injEq, Except.ok.injEq, List.map_inj_left]
    simp only [true_and, Branch.trimmedEnd_eq_self_iff]
  · have htip := tip_of_hasBranches hf hdir h hb (hdash b hb)
    constructor
    · intro hplain
      rw [if_pos hplain] at htip
      refine ⟨Branch.trimmedEnd_eq_self_iff.mpr fun c hc => ?_, htip⟩
      exact Branch.isBlank_of_isPlain hplain (List.mem_of_getLast? hc)
    · intro hplain
      rw [if_neg (by simp [hplain])] at htip
      refine ⟨htip, fun σ source s location => ?_⟩
      rw [BranchHandle.revision, Branch.validate_of_isValid (h.isValid hb) (hdash b hb), hplain]
      rfl

end History

/-! A repository with three branches. One has a blank in its name, another at the end of it. -/

namespace Spaced

def id : Octets := List.replicate 40 'a'

def names : List String := ["a\u00a0b", "x", "x\u00a0"]

def world : World where
  disk := { root := .dir 0o755 [([0x72], .dir 0o755 [
    (Repository.headName, .file 0o644 (Utf8.ofString "ref: refs/heads/x\n")),
    (Objects.objectsName, .dir 0o755 [
      (Utf8.ofString "aa", .dir 0o755 [(List.replicate 38 0x61, .file 0o444 [])])]),
    (Repository.refsName, .dir 0o755 [(Utf8.ofString "heads", .dir 0o755
      (names.map fun name => (Utf8.ofString name, .file 0o644 (Octets.toBytes (id ++ ['\n'])))))])])] }
  commits := [(⟨String.ofList id⟩, ⟨[], []⟩)]

def branches : List (String × CommitId) := names.map fun name => (name, ⟨String.ofList id⟩)

theorem hasBranches : world.HasBranches [0x2F, 0x72] branches := by
  have hload : Refs.Packed.load world.disk [0x2F, 0x72] = .ok [] := by decide
  have hloose : Refs.Table.looseNames ⟨world.disk, [0x2F, 0x72], []⟩ Disk.pathLimit
      (octets "refs/heads") = .ok (names.map fun name => (RefName.ofBranch name, true)) := by
    decide
  have hsorted : (names.map RefName.ofBranch).mergeSort (fun x y => !decide (y < x)) =
      names.map RefName.ofBranch := List.mergeSort_of_pairwise (by decide)
  refine ⟨⟨world.disk, [0x2F, 0x72], []⟩, ?_, ?_, ?_⟩
  · rw [Refs.table, hload]
    rfl
  · rw [Refs.Table.names, hloose]
    exact congrArg Except.ok hsorted
  · intro b hb
    refine ⟨id, ?_⟩
    revert b
    exact forall_mem_of_all (by decide)

/-- Two branches are listed as one and the same, and the first cannot be used. -/
theorem branches_and_tips_spaced :
    History.branches [0x2F, 0x72] world = (world, .ok ["a\u00a0b", "x", "x"]) ∧
      History.tip [0x2F, 0x72] "x" world = (world, .ok ⟨String.ofList id⟩) ∧
      History.tip [0x2F, 0x72] "a\u00a0b" world = (world, .error (.branchInvalid "a\u00a0b"
        "contains a character git does not allow")) := by
  have hdash : ∀ b ∈ branches, ¬ ['-'] <+: b.1.toList := forall_mem_of_all (by decide)
  obtain ⟨hlist, -, htips⟩ := @History.branches_and_tips world [0x2F, 0x72] _ _ rfl
    (by decide) hasBranches hdash
  have hnames : branches.map (fun b => Branch.trimmedEnd b.1) = ["a\u00a0b", "x", "x"] := by
    decide
  rw [hnames] at hlist
  refine ⟨hlist, ?_, ?_⟩
  · exact ((htips ("x", ⟨String.ofList id⟩) (by simp [branches, names])).1 (by decide)).2
  · exact ((htips ("a\u00a0b", ⟨String.ofList id⟩) (by simp [branches, names])).2 (by decide)).1

end Spaced

end Depot
