import Depot.Proofs.History.Clone
import Depot.Proofs.History.Refs
import Depot.Proofs.Text.Utf8
import Mathlib.Data.List.TakeWhile

/-!
The head of a clone. The repository of a clone has no refs but the packed ones, all of them with the
id that was cloned, so whatever name its head is read under, the answer is that id.
-/

namespace Depot

open Files

namespace Files

theorem length_join_le (base path : Bytes) :
    (Path.join base path).length ≤ base.length + path.length + 1 := by
  rw [Path.join]
  split_ifs
  · omega
  · rw [List.length_append]
    omega
  · rw [List.length_append, List.length_cons]
    omega

namespace Way

/-- No name on a way that begins at the root is longer than names can be. -/
theorem Steps.length_le {root : Node} {w w' : Way} (h : Steps root w w')
    (hw : ∀ n ∈ w.place, n.length ≤ 255) : ∀ n ∈ w'.place, n.length ≤ 255 := by
  induction h with
  | refl => exact hw
  | tail _ hstep ih =>
    cases hstep with
    | stay => exact ih
    | up => exact fun n hn => ih n (List.dropLast_subset _ hn)
    | down hn =>
      intro m hm
      rcases List.mem_append.mp hm with hm | hm
      · exact ih m hm
      · exact List.mem_singleton.mp hm ▸ hn
    | jump =>
      dsimp only
      split_ifs
      · simp
      · exact ih

end Way

namespace Disk

variable {d : Disk} {base : Bytes} {place names : Place} {n : Name}

theorem length_le_of_locate {path : Bytes} {x : Node} (habs : Path.isAbsolute path = true)
    (h : d.locate path = .ok (place, x)) : ∀ n ∈ place, n.length ≤ 255 := by
  obtain ⟨-, -, hends⟩ := ends_of_go_ok (go_of_locate_ok h)
  obtain ⟨links, hsteps⟩ := hends.steps
  refine hsteps.length_le ?_
  simp [startPlace, habs]

/-- What a short path says about an entry of a directory is what is there. -/
theorem LeadsTo.find_entry (h : d.LeadsTo base place) (hn : IsName n) (hlen : n.length ≤ 255)
    (hlimit : (Path.below base [n]).length ≤ pathLimit) (follow : Bool)
    (hlink : follow = true → ∀ target, d.root.get? (place ++ [n]) ≠ some (.link target)) :
    d.find follow (Path.below base [n]) = .ok ⟨place ++ [n], d.root.get? (place ++ [n])⟩ := by
  have hpath : Spells base [n] (Path.below base [n]) :=
    spells_below h.ne_nil h.nul (by simp) (by simpa using hn)
  have hname := h.name hn hpath
  rcases hname.find_eq follow hlink with hlong | ⟨-, hfind⟩
  · obtain ⟨links, hwalks⟩ := h.walks
    have hwalk := hwalks d.root .refl h.dir follow [.name n] (.inr (by simp))
    rw [Disk.find, if_neg (by omega), go_eq hpath.ne_nil hpath.nul, startPlace, hpath.absolute,
      ← hpath.hops.walk_eq, ← startPlace, List.map_singleton, hwalk, walk_name h.dir,
      if_neg (by omega)] at hlong
    cases hx : d.root.get? (place ++ [n]) with
    | none => simp [hx] at hlong
    | some x =>
      rw [hx] at hlong
      cases x with
      | link target =>
        cases follow with
        | false => simp at hlong
        | true => exact absurd hx (hlink rfl target)
      | _ =>
        dsimp only at hlong
        rw [walk_nil hx] at hlong
        cases hlong
  · exact hfind

theorem LeadsTo.stat_entry (h : d.LeadsTo base place) (hn : IsName n) (hlen : n.length ≤ 255)
    (hlimit : (Path.below base [n]).length ≤ pathLimit) {x : Node}
    (hx : d.root.get? (place ++ [n]) = some x) (hlink : ∀ target, x ≠ .link target) :
    d.stat (Path.below base [n]) = .ok x ∧ d.lstat (Path.below base [n]) = .ok x := by
  have hfind := fun follow => h.find_entry hn hlen hlimit follow (by simp [hx, hlink])
  rw [stat, locate, lstat, hfind, hfind, hx]
  exact ⟨rfl, rfl⟩

/-- Where there is nothing but directories, a path of names leads to none of anything else. -/
theorem LeadsTo.isDir_of_lstat (h : d.LeadsTo base place) (hnames : ∀ n ∈ names, IsName n)
    (hne : names ≠ []) (ho : d.root.IsOpen place names) {x : Node}
    (hx : d.lstat (Path.below base names) = .ok x) : x.isDir = true := by
  have hpath := spells_below h.ne_nil h.nul hne hnames
  generalize Path.below base names = path at hpath hx
  rcases List.eq_nil_or_concat names with hnil | ⟨ns, n, rfl⟩
  · exact absurd hnil hne
  rw [List.concat_eq_append] at *
  have hon : d.root.IsOpen place ns := fun part hpart => ho part (hpart.trans (List.prefix_append _ _))
  have hlstat : ∀ r, d.find false path = r → (·.2) <$> (r >>= Found.existing) = .ok x :=
    fun r hr => hr ▸ hx
  rcases hon ns List.prefix_rfl with hnone | hdir
  · obtain ⟨links, hwalks⟩ := h.walks
    have hwalk := hwalks d.root .refl h.dir false ((ns ++ [n]).map .name) (.inr (by simp))
    rw [List.map_append] at hwalk
    rw [lstat, Disk.find] at hx
    split_ifs at hx
    · cases hx
    · rw [go_eq hpath.ne_nil hpath.nul, startPlace, hpath.absolute, ← hpath.hops.walk_eq,
        ← startPlace, List.map_append, hwalk] at hx
      rcases walk_missing hon h.dir hnone (show [n].map Hop.name ≠ [] by simp) false links with
        hmiss | hmiss
      · rw [hmiss] at hx
        cases hx
      · rw [hmiss] at hx
        cases hx
  · have hname := h.names (hnames n (by simp)) hpath hdir
    rcases hname.find_eq false (by simp) with hlong | ⟨-, hfind⟩
    · cases hlstat _ hlong
    · have hok := hlstat _ hfind
      rcases ho (ns ++ [n]) List.prefix_rfl with hnone | ⟨mode, es, hdir⟩
      · rw [List.append_assoc, hnone] at hok
        cases hok
      · rw [List.append_assoc, hdir] at hok
        obtain rfl : Node.dir mode es = x := Except.ok.inj hok
        rfl

end Disk

end Files

namespace RefName

/-- A name below `refs/` that is valid. -/
structure IsRef (name : Octets) : Prop where
  valid : isValid name = true
  bytes : ∀ c ∈ name, c.toNat < 256
  below : ∃ rest, name = octets "refs/" ++ rest

variable {name : Octets}

theorem IsRef.fileNames_eq (h : IsRef name) :
    ∃ rest, fileNames name = Repository.refsName :: rest := by
  obtain ⟨rest, rfl⟩ := h.below
  have hsplit : splitAtSep '/' (octets "refs/" ++ rest) = octets "refs" :: splitAtSep '/' rest :=
    splitAtSep_append_cons '/' (octets "refs") rest
  exact ⟨(splitAtSep '/' rest).map Octets.toBytes, by rw [fileNames, hsplit]; rfl⟩

end RefName

namespace World

def headText (ref id : Octets) : Octets :=
  (if (octets "refs/heads/").isPrefixOf ref then octets "ref: " ++ ref else id) ++ ['\n']

def packedRefs (ref id : Octets) : List Refs.Packed :=
  if (octets "refs/heads/").isPrefixOf ref then
    [⟨id ++ ' ' :: ref, none⟩,
      ⟨id ++ octets " refs/remotes/origin/" ++ ref.drop (octets "refs/heads/").length, none⟩]
  else [⟨id ++ ' ' :: ref, none⟩]

theorem not_isGap_of_not_le {c : Char} (h : ¬ c ≤ ' ') : isGap c = false := by
  have hall : ∀ gap ∈ [' ', '\t', '\x0d', '\n'], gap ≤ ' ' := by simp
  by_contra hgap
  rw [Bool.not_eq_false] at hgap
  have hmem : c ∈ [' ', '\t', '\x0d', '\n'] := by simpa [isGap, or_assoc] using hgap
  exact h (hall c hmem)

theorem isId_not_le {id : Octets} (hid : Refs.IsId id) : ∀ c ∈ id, ¬ c ≤ ' ' := fun c hc =>
  (forall_mem_of_all (by decide) : ∀ c ∈ "0123456789abcdef".toList, ¬ c ≤ ' ') c (hid.digits c hc)

theorem isId_toNat_lt {id : Octets} (hid : Refs.IsId id) : ∀ c ∈ id, c.toNat < 256 := fun c hc =>
  (forall_mem_of_all (by decide) : ∀ c ∈ "0123456789abcdef".toList, c.toNat < 256) c
    (hid.digits c hc)

section head

variable {ref id : Octets} (hr : RefName.IsRef ref) (hid : Refs.IsId id)

include hr hid

theorem toNat_lt_of_mem_headText : ∀ c ∈ headText ref id, c.toNat < 256 := by
  intro c hc
  rw [headText] at hc
  rcases List.mem_append.mp hc with hc | hc
  · split_ifs at hc
    · rcases List.mem_append.mp hc with hc | hc
      · exact toNat_lt_of_mem_octets hc
      · exact hr.bytes c hc
    · exact isId_toNat_lt hid c hc
  · rw [List.mem_singleton.mp hc]
    decide

theorem isHead_headText : Repository.isHead (Octets.toBytes (headText ref id)) = true := by
  rw [Repository.isHead, Octets.ofBytes_toBytes (toNat_lt_of_mem_headText hr hid), headText]
  by_cases hbranch : (octets "refs/heads/").isPrefixOf ref = true
  · obtain ⟨rest, rfl⟩ := hr.below
    rw [if_pos hbranch]
    exact if_pos (by simp [show octets "ref: " = ['r', 'e', 'f', ':', ' '] from rfl,
      show octets "ref:" = ['r', 'e', 'f', ':'] from rfl, dropGap, isGap,
      show octets "refs/" = ['r', 'e', 'f', 's', '/'] from rfl])
  · rw [if_neg hbranch, hid.leadingId?_append]
    simp

/-- The head of a clone is a ref, or an id. -/
theorem parse_headText : Refs.parse (Octets.toBytes (headText ref id)) =
    .ok (if (octets "refs/heads/").isPrefixOf ref then .symbolic ref else .commit id) := by
  have htrim : ∀ front : Octets, ∀ last : Octets, last ≠ [] → (∀ c ∈ last, ¬ c ≤ ' ') →
      (∀ c ∈ front, c ≠ '\x00') →
      ((front ++ last ++ ['\n']).reverse.dropWhile isGap).reverse.takeWhile (· ≠ '\x00') =
        front ++ last := by
    intro front last hne hlast hfront
    obtain ⟨init, c, rfl⟩ := List.eq_nil_or_concat last |>.resolve_left hne
    rw [List.concat_eq_append] at *
    have hgap := not_isGap_of_not_le (hlast c (by simp))
    have hnewline : isGap '\n' = true := rfl
    simp only [List.reverse_append, List.reverse_cons, List.reverse_nil, List.nil_append,
      List.cons_append, List.dropWhile_cons, hnewline, hgap, if_true]
    simp only [Bool.false_eq_true, if_false, List.reverse_cons, List.reverse_append,
      List.reverse_reverse]
    rw [List.append_assoc]
    refine List.takeWhile_eq_self_iff.mpr fun x hx => ?_
    rcases List.mem_append.mp hx with hx | hx
    · simpa using hfront x hx
    · refine decide_eq_true fun h0 => hlast x hx ?_
      rw [h0]
      decide
  rw [Refs.parse, Octets.ofBytes_toBytes (toNat_lt_of_mem_headText hr hid), headText]
  by_cases hbranch : (octets "refs/heads/").isPrefixOf ref = true
  · obtain ⟨rest, hrest⟩ := hr.below
    have hne : ref ≠ [] := by
      rw [hrest]
      exact List.cons_ne_nil _ _
    simp only [if_pos hbranch]
    rw [htrim _ ref hne (fun c hc => RefName.not_le_of_mem hr.valid hc)
      (forall_mem_of_all (by decide))]
    subst hrest
    simp [show octets "ref: " = ['r', 'e', 'f', ':', ' '] from rfl,
      show octets "ref:" = ['r', 'e', 'f', ':'] from rfl, dropGap, isGap,
      show octets "refs/" = ['r', 'e', 'f', 's', '/'] from rfl]
  · have hne : id ≠ [] := by
      intro hnil
      have hlen := hid.length
      rw [hnil] at hlen
      cases hlen
    have hnot : (octets "ref:").isPrefixOf id = false := by
      obtain ⟨c, cs, rfl⟩ := List.exists_cons_of_ne_nil hne
      have hc : c ≠ 'r' := by
        rintro rfl
        exact absurd (hid.digits 'r' (by simp)) (by decide)
      have hfirst : ('r' == c) = false := beq_eq_false_iff_ne.mpr hc.symm
      show ('r' == c && ['e', 'f', ':'].isPrefixOf cs) = false
      rw [hfirst, Bool.false_and]
    have htrimmed := htrim [] id hne (isId_not_le hid) (by simp)
    rw [List.nil_append] at htrimmed
    simp only [if_neg hbranch]
    rw [htrimmed]
    have hlead := hid.leadingId?_append []
    rw [List.append_nil] at hlead
    rw [hnot, hlead, show id.drop Refs.idLength = [] from List.drop_eq_nil_of_le (Nat.le_of_eq hid.length)]
    rfl

/-- Every line of the list of packed refs begins with the id. -/
theorem line_of_mem_packedRefs {p : Refs.Packed} (hp : p ∈ packedRefs ref id) :
    p.addition = none ∧ (∀ c ∈ p.line, c.toNat < 256 ∧ c ≠ '\n') ∧
      ∃ rest, p.line = id ++ rest ∧ 2 ≤ rest.length := by
  have hlen : 2 ≤ (' ' :: ref).length := by
    obtain ⟨rest, rfl⟩ := hr.below
    rw [List.length_cons, List.length_append, show (octets "refs/").length = 5 from rfl]
    omega
  have hname : ∀ c ∈ ref, c.toNat < 256 ∧ c ≠ '\n' := by
    refine fun c hc => ⟨hr.bytes c hc, ?_⟩
    rintro rfl
    exact RefName.not_le_of_mem hr.valid hc (by decide)
  have hdigits : ∀ c ∈ id, c.toNat < 256 ∧ c ≠ '\n' := by
    refine fun c hc => ⟨isId_toNat_lt hid c hc, ?_⟩
    rintro rfl
    exact isId_not_le hid _ hc (by decide)
  have hshort : ∀ c ∈ id ++ ' ' :: ref, c.toNat < 256 ∧ c ≠ '\n' := by
    simp only [List.mem_append, List.mem_cons]
    rintro c (hc | rfl | hc)
    · exact hdigits c hc
    · decide
    · exact hname c hc
  have hlong : ∀ c ∈ id ++ octets " refs/remotes/origin/" ++
      ref.drop (octets "refs/heads/").length, c.toNat < 256 ∧ c ≠ '\n' := by
    simp only [List.mem_append]
    rintro c ((hc | hc) | hc)
    · exact hdigits c hc
    · exact (forall_mem_of_all (by decide) :
        ∀ c ∈ octets " refs/remotes/origin/", c.toNat < 256 ∧ c ≠ '\n') c hc
    · exact hname c (List.mem_of_mem_drop hc)
  rw [packedRefs] at hp
  split_ifs at hp
  · rcases List.mem_cons.mp hp with rfl | hp
    · exact ⟨rfl, hshort, _, rfl, hlen⟩
    · obtain rfl := List.mem_singleton.mp hp
      refine ⟨rfl, hlong, _, List.append_assoc .., ?_⟩
      rw [List.length_append, show (octets " refs/remotes/origin/").length = 21 from rfl]
      omega
  · obtain rfl := List.mem_singleton.mp hp
    exact ⟨rfl, hshort, _, rfl, hlen⟩

end head

def packedHeader : Octets := octets "# pack-refs with: peeled fully-peeled sorted "

theorem packedText_eq {ps : List Refs.Packed} (h : ∀ p ∈ ps, p.addition = none) :
    Refs.packedText ps = packedHeader ++ '\n' :: (ps.flatMap fun p => p.line ++ ['\n']) := by
  have hlines : (ps.map fun p => p.line ++ '\n' :: (p.addition.map (· ++ ['\n'])).getD []) =
      ps.map fun p => p.line ++ ['\n'] := by
    refine List.map_congr_left fun p hp => ?_
    rw [h p hp]
    rfl
  have hfirst : octets "# pack-refs with: peeled fully-peeled sorted \n" = packedHeader ++ ['\n'] := by
    decide
  rw [Refs.packedText, List.flatMap_def, hlines, ← List.flatMap_def, hfirst, List.append_assoc,
    List.singleton_append]

/-- The lines of a list of packed refs are what was put into it. -/
theorem splitAtSep_packedText {ps : List Refs.Packed}
    (h : ∀ p ∈ ps, p.addition = none ∧ '\n' ∉ p.line) :
    splitAtSep '\n' (Refs.packedText ps) = packedHeader :: ps.map (·.line) ++ [[]] := by
  have hlines : splitAtSep '\n' (ps.flatMap fun p => p.line ++ ['\n']) = ps.map (·.line) ++ [[]] := by
    induction ps with
    | nil => rfl
    | cons p ps ih =>
      obtain ⟨⟨-, hp⟩, hps⟩ := List.forall_mem_cons.mp h
      rw [List.flatMap_cons, List.append_assoc, List.singleton_append, splitAtSep_append_cons,
        splitAtSep_of_notMem hp, ih hps]
      rfl
  rw [packedText_eq fun p hp => (h p hp).1, splitAtSep_append_cons, hlines,
    splitAtSep_of_notMem (by decide)]
  rfl

/-- Lines that add to no line before them are read one by one. -/
theorem ofLines_map_line {ps : List Refs.Packed} (h : ∀ p ∈ ps, p.addition = none ∧
    Refs.idLength + 2 ≤ p.line.length ∧ p.line.head? ≠ some '^') :
    Refs.Packed.ofLines (ps.map (·.line)) = .ok ps := by
  have hself : ∀ p ∈ ps, (⟨p.line, none⟩ : Refs.Packed) = p := fun p hp => by
    rw [← (h p hp).1]
  induction ps with
  | nil => rfl
  | cons p ps ih =>
    obtain ⟨⟨-, hlen, -⟩, hps⟩ := List.forall_mem_cons.mp h
    obtain ⟨hp, hrest⟩ := List.forall_mem_cons.mp hself
    have hrest := ih hps hrest
    cases ps with
    | nil =>
      rw [List.map_cons, List.map_nil, Refs.Packed.ofLines, if_neg (by omega), hp]
      rfl
    | cons q ps =>
      have hq := (hps q List.mem_cons_self).2.2
      rw [List.map_cons] at hrest ⊢
      rw [List.map_cons, Refs.Packed.ofLines, if_neg (by omega), if_neg hq, ← List.map_cons,
        List.map_cons, hrest, hp]
      rfl

section entries

variable (source : Bytes) (ref id : Octets)

theorem find?_head : Entries.find? Repository.headName (cloneRepository source ref id) =
    some (.file 0o644 (Octets.toBytes (headText ref id))) := by
  simp only [cloneRepository, List.foldl]
  iterate 4 rw [Entries.find?_insert_ne (by decide)]
  exact Entries.find?_insert_self _ _ _

theorem find?_config : Entries.find? Repository.configName (cloneRepository source ref id) =
    some (.file 0o644 (Utf8.ofString "[core]\n\trepositoryformatversion = 0\n\tbare = false\n")) := by
  simp only [cloneRepository, List.foldl]
  iterate 3 rw [Entries.find?_insert_ne (by decide)]
  exact Entries.find?_insert_self _ _ _

theorem find?_objects : ∃ es, Entries.find? Objects.objectsName (cloneRepository source ref id) =
    some (.dir 0o755 es) := by
  simp only [cloneRepository, List.foldl]
  iterate 2 rw [Entries.find?_insert_ne (by decide)]
  exact ⟨_, Entries.find?_insert_self _ _ _⟩

theorem find?_packed : Entries.find? Refs.packedName (cloneRepository source ref id) =
    some (.file 0o644 (Octets.toBytes (Refs.packedText (packedRefs ref id)))) := by
  simp only [cloneRepository, List.foldl]
  rw [Entries.find?_insert_ne (by decide)]
  exact Entries.find?_insert_self _ _ _

theorem find?_refs : Entries.find? Repository.refsName (cloneRepository source ref id) =
    some (.dir 0o755 [(Utf8.ofString "heads", .dir 0o755 []), (Utf8.ofString "tags", .dir 0o755 [])]) := by
  simp only [cloneRepository, List.foldl]
  exact Entries.find?_insert_self _ _ _

/-- There are only directories among the files of refs. -/
theorem isDir_of_refs {more : Place} {x : Node}
    (h : (Node.dir 0o755 [(Utf8.ofString "heads", .dir 0o755 []),
      (Utf8.ofString "tags", .dir 0o755 [])]).get? more = some x) : ∃ mode es, x = .dir mode es := by
  cases more with
  | nil => exact ⟨_, _, (Option.some.inj h).symm⟩
  | cons n more =>
    rw [Node.get?_dir_cons] at h
    obtain ⟨y, hy, hx⟩ := Option.bind_eq_some_iff.mp h
    have hempty : y = .dir 0o755 [] := by
      have hmem := Entries.mem_of_find? hy
      simp only [List.mem_cons, Prod.mk.injEq, List.not_mem_nil, or_false] at hmem
      exact hmem.elim (·.2) (·.2)
    rw [hempty] at hx
    cases more with
    | nil => exact ⟨_, _, (Option.some.inj hx).symm⟩
    | cons m more => cases hx

end entries

def configLines : Octets :=
  "[core]".toList ++ '\n' :: "\trepositoryformatversion = 0".toList ++ '\n' ::
    "\tbare = false".toList ++ ['\n']

theorem isUsable_config : Configuration.isUsable
    (Utf8.ofString "[core]\n\trepositoryformatversion = 0\n\tbare = false\n") = true := by
  have hlines : Configuration.joinLineEnds (Octets.ofBytes
      (Utf8.ofString "[core]\n\trepositoryformatversion = 0\n\tbare = false\n")) =
        configLines := by decide +kernel
  have hentries : Configuration.entries? [] (configLines.length + 1) configLines =
      some [⟨octets "core.repositoryformatversion", some ['0']⟩,
        ⟨octets "core.bare", some "false".toList⟩] := by decide +kernel
  rw [Configuration.isUsable, Configuration.parse?, if_neg (by decide), hlines, hentries]
  decide +kernel

section reading

variable {d : Disk} {git source : Bytes} {place : Place} {ref id : Octets} {mode : Nat}

/-- The repository of a clone is where a path leads, with room for the names in it. -/
structure HasRepository (d : Disk) (git : Bytes) (place : Place) (source : Bytes) (ref id : Octets) :
    Prop where
  leads : d.LeadsTo git place
  get : d.root.get? place = some (.dir 0o755 (cloneRepository source ref id))
  ref : RefName.IsRef ref
  id : Refs.IsId id
  room : git.length + 16 ≤ Disk.pathLimit

namespace HasRepository

variable (h : HasRepository d git place source ref id)

include h

theorem length_below {n : Name} (hn : n.length ≤ 15) :
    (Path.below git [n]).length ≤ Disk.pathLimit := by
  have hroom := h.room
  have hle := length_join_le git n
  rw [Path.below, joinWith]
  omega

theorem look {n : Name} {x : Node} (hn : IsName n) (hlen : n.length ≤ 15)
    (hx : Entries.find? n (cloneRepository source ref id) = some x)
    (hlink : ∀ target, x ≠ .link target) :
    d.stat (Path.below git [n]) = .ok x ∧ d.lstat (Path.below git [n]) = .ok x := by
  refine h.leads.stat_entry hn (by omega) (h.length_below hlen) ?_ hlink
  rw [Node.get?_append, h.get]
  simp [Node.get?_dir_cons, hx]

theorem read {n : Name} {data : Bytes} (hn : IsName n) (hlen : n.length ≤ 15)
    (hx : Entries.find? n (cloneRepository source ref id) = some (.file 0o644 data)) :
    d.read (Path.below git [n]) = .ok data := by
  rw [Disk.read, (h.look hn hlen hx nofun).1]
  rfl

theorem find?_eq : Repository.find? d git = some git := by
  have hredirection : Repository.redirection? d git = none := by
    rw [Repository.redirection?]
    rcases h.leads.stat_cases with hstat | ⟨mode, es, -, hstat⟩ <;> rw [hstat]
  obtain ⟨es, hobjects⟩ := find?_objects source ref id
  have hhead := h.look (n := Repository.headName) (by decide) (by decide) (find?_head source ref id) nofun
  have hconfig := h.read (n := Repository.configName) (by decide) (by decide) (find?_config source ref id)
  have hrefs := h.look (n := Repository.refsName) (by decide) (by decide) (find?_refs source ref id) nofun
  have hobj := h.look (n := Objects.objectsName) (by decide) (by decide) hobjects nofun
  have hread := h.read (n := Repository.headName) (by decide) (by decide) (find?_head source ref id)
  have his : Repository.isRepository d git = true := by
    simp only [Repository.isRepository, Repository.hasHead, Repository.canEnter, hhead.2, hobj.1,
      hrefs.1, hread]
    simpa [Except.toOption] using isHead_headText h.ref h.id
  have hconf : Repository.isConfigured d git = true := by
    simp only [Repository.isConfigured, hconfig]
    exact isUsable_config
  simp [Repository.find?, hredirection, his, hconf]

theorem load_eq : ∃ ps, Refs.Packed.load d git = .ok ps ∧ ∀ p, p ∈ ps ↔ p ∈ packedRefs ref id := by
  have hmem := fun p => @line_of_mem_packedRefs ref id h.ref h.id p
  have hread := h.read (n := Refs.packedName) (by decide) (by decide) (find?_packed source ref id)
  have hbytes : ∀ c ∈ Refs.packedText (packedRefs ref id), c.toNat < 256 := by
    intro c hc
    rw [packedText_eq fun p hp => (hmem p hp).1] at hc
    rcases List.mem_append.mp hc with hc | hc
    · exact toNat_lt_of_mem_octets hc
    · rcases List.mem_cons.mp hc with rfl | hc
      · decide
      · obtain ⟨p, hp, hc⟩ := List.mem_flatMap.mp hc
        rcases List.mem_append.mp hc with hc | hc
        · exact ((hmem p hp).2.1 c hc).1
        · rw [List.mem_singleton.mp hc]
          decide
  have hsplit : splitAtSep '\n' (Refs.packedText (packedRefs ref id)) =
      packedHeader :: (packedRefs ref id).map (·.line) ++ [[]] := splitAtSep_packedText fun p hp =>
    ⟨(hmem p hp).1, fun hc => ((hmem p hp).2.1 _ hc).2 rfl⟩
  have hlines : Refs.Packed.ofLines ((packedRefs ref id).map (·.line)) = .ok (packedRefs ref id) := by
    refine ofLines_map_line fun p hp => ?_
    obtain ⟨hnone, -, rest, hline, hlen⟩ := hmem p hp
    rw [hline, List.length_append, h.id.length]
    refine ⟨hnone, by omega, fun hfirst => ?_⟩
    obtain ⟨c, cs, rfl⟩ := List.exists_cons_of_ne_nil h.id.ne_nil
    obtain rfl := Option.some.inj hfirst
    exact absurd (h.id.digits _ List.mem_cons_self) (by decide)
  have hcross : packedHeader.head? = some '#' := rfl
  have hstart : (octets "# pack-refs with:").isPrefixOf packedHeader = true := by decide
  rw [Refs.Packed.load, hread]
  simp only [Octets.ofBytes_toBytes hbytes, hsplit, List.getLast?_concat, List.dropLast_concat,
    ne_eq, not_true_eq_false, if_false, hcross, hstart, if_true, hlines, pure, Except.pure, bind,
    Except.bind]
  exact ⟨_, rfl, fun p => List.mem_mergeSort⟩

theorem get?_refs (more : Place) : d.root.get? (place ++ Repository.refsName :: more) =
    (Node.dir 0o755 [(Utf8.ofString "heads", .dir 0o755 []),
      (Utf8.ofString "tags", .dir 0o755 [])]).get? more := by
  rw [Node.get?_append, h.get, Option.bind_some, Node.get?_dir_cons, find?_refs, Option.bind_some]

/-- Where a clone would keep the file of a ref, there is nothing but a directory. -/
theorem isDir_of_lstat_ref {name : Octets} (hname : RefName.IsRef name) {x : Node}
    (hx : d.lstat (Path.join git (Octets.toBytes name)) = .ok x) : x.isDir = true := by
  obtain ⟨rest, hnames⟩ := hname.fileNames_eq
  have hpath : Path.join git (Octets.toBytes name) = Path.below git (RefName.fileNames name) := by
    rw [Path.below, RefName.joinWith_fileNames hname.bytes]
  have hopen : d.root.IsOpen place (RefName.fileNames name) := by
    intro part hpart
    rw [hnames] at hpart
    cases part with
    | nil => exact .inr (by simpa using h.leads.dir)
    | cons n more =>
      obtain ⟨rfl, -⟩ := List.cons_prefix_cons.mp hpart
      have hbelow := h.get?_refs more
      cases hx : d.root.get? (place ++ Repository.refsName :: more) with
      | none => exact .inl rfl
      | some x =>
        obtain ⟨mode, es, rfl⟩ := isDir_of_refs (hbelow.symm.trans hx)
        exact .inr ⟨mode, es, hx⟩
  rw [hpath] at hx
  exact h.leads.isDir_of_lstat (RefName.isName_of_mem_fileNames hname.valid hname.bytes)
    (by simp [hnames]) hopen hx

/-- No ref of a clone has a file of its own. -/
theorem readLoose_ref {name : Octets} (hname : RefName.IsRef name) {v : Refs.Value} :
    Refs.readLoose d git name ≠ .ok v := by
  intro hok
  have hdir := fun x => h.isDir_of_lstat_ref hname (x := x)
  rw [Refs.readLoose] at hok
  cases hx : d.lstat (Path.join git (Octets.toBytes name)) with
  | error e =>
    rw [hx] at hok
    cases e <;> cases hok
  | ok x =>
    have hxdir := hdir x hx
    rw [hx] at hok
    cases x with
    | dir mode es => cases hok
    | _ => cases hxdir

variable {t : Refs.Table}

/-- The refs of a clone. -/
def IsTable (d : Disk) (git : Bytes) (id : Octets) (t : Refs.Table) : Prop :=
  t.disk = d ∧ t.repo = git ∧ ∀ p ∈ t.packed, p.id? = some id

theorem table_eq : ∃ t, Refs.table d git = .ok t ∧ IsTable d git id t ∧
    (⟨id ++ ' ' :: ref, none⟩ : Refs.Packed) ∈ t.packed := by
  obtain ⟨ps, hload, hps⟩ := h.load_eq
  refine ⟨⟨d, git, ps⟩, by rw [Refs.table, hload]; rfl, ⟨rfl, rfl, fun p hp => ?_⟩, (hps _).mpr ?_⟩
  · obtain ⟨-, -, rest, hline, -⟩ := line_of_mem_packedRefs h.ref h.id ((hps p).mp hp)
    rw [Refs.Packed.id?, hline, h.id.leadingId?_append]
  · rw [packedRefs]
    split_ifs <;> exact List.mem_cons_self

/-- The ref of a clone is in its list of packed refs. -/
theorem packedValue_ref (ht : IsTable d git id t)
    (hmem : (⟨id ++ ' ' :: ref, none⟩ : Refs.Packed) ∈ t.packed) (lack : Refs.Lack) :
    t.packedValue lack ref = .ok (.commit id) := by
  have hname : Refs.Packed.name ⟨id ++ ' ' :: ref, none⟩ = ref := by
    have hlen : (id ++ [' ']).length = Refs.idLength + 1 := by
      rw [List.length_append, h.id.length]
      rfl
    rw [Refs.Packed.name, List.append_cons, ← hlen, List.drop_left]
  rw [Refs.Table.packedValue]
  cases hfind : t.packed.find? fun p => p.name = ref with
  | none =>
    have hnot := List.find?_eq_none.mp hfind _ hmem
    simp [hname] at hnot
  | some p =>
    dsimp only
    rw [ht.2.2 p (List.mem_of_find?_eq_some hfind)]

theorem value_ref (ht : IsTable d git id t) {name : Octets} (hname : RefName.IsRef name)
    {v : Refs.Value} (hv : t.value name = .ok v) : v = .commit id := by
  obtain ⟨rfl, rfl, hpacked⟩ := ht
  have hall : ∀ lack, t.packedValue lack name = .ok v → v = .commit id := by
    intro lack hok
    rw [Refs.Table.packedValue] at hok
    split at hok
    · cases hok
    · next p hp =>
      rw [hpacked p (List.mem_of_find?_eq_some hp)] at hok
      exact (Except.ok.inj hok).symm
  rw [Refs.Table.value] at hv
  split at hv
  · exact hall _ hv
  · exact hall _ hv
  · exact absurd hv (h.readLoose_ref hname)

theorem value_head (ht : IsTable d git id t) : t.value (octets "HEAD") =
    .ok (if (octets "refs/heads/").isPrefixOf ref then .symbolic ref else .commit id) := by
  obtain ⟨rfl, rfl, -⟩ := ht
  have hhead := find?_head source ref id
  have hread := h.read (n := Repository.headName) (by decide) (by decide) hhead
  have hlook := (h.look (n := Repository.headName) (by decide) (by decide) hhead nofun).2
  have hpath : Path.join t.repo (Octets.toBytes (octets "HEAD")) =
      Path.below t.repo [Repository.headName] := rfl
  have hloose : Refs.readLoose t.disk t.repo (octets "HEAD") =
      .ok (if (octets "refs/heads/").isPrefixOf ref then .symbolic ref else .commit id) := by
    rw [Refs.readLoose, hpath, hlook, hread]
    exact parse_headText h.ref h.id
  rw [Refs.Table.value, hloose]

/-- Wherever the name of a ref of a clone leads, the id is the one that was cloned. -/
theorem follow_eq (ht : IsTable d git id t) {links : Nat} {name other : Octets}
    (hname : name = octets "HEAD" ∨ (∀ c ∈ name, c.toNat < 256) ∧ ∃ rest, name = octets "refs/" ++ rest)
    (hok : t.follow links name = .ok other) : other = id := by
  induction links generalizing name with
  | zero => cases hok
  | succ links ih =>
    rw [Refs.Table.follow] at hok
    split_ifs at hok with hvalid
    cases hv : t.value name with
    | error lack =>
      rw [hv] at hok
      cases hok
    | ok v =>
      have hv' : v = .symbolic ref ∨ v = .commit id := by
        rcases hname with rfl | ⟨hbytes, hbelow⟩
        · obtain rfl := Except.ok.inj ((h.value_head ht).symm.trans hv)
          split_ifs
          · exact .inl rfl
          · exact .inr rfl
        · exact .inr (h.value_ref ht ⟨by simpa using hvalid, hbytes, hbelow⟩ hv)
      rw [hv] at hok
      rcases hv' with rfl | rfl
      · exact ih (.inr ⟨h.ref.bytes, h.ref.below⟩) hok
      · exact (Except.ok.inj hok).symm

theorem meaning?_head {other : Octets} (hok : meaning? d git (octets "HEAD") = .ok (some other)) :
    other = id := by
  obtain ⟨t, htable, ht, -⟩ := h.table_eq
  rw [meaning?, htable] at hok
  cases hfirst : t.first? (RefName.expansions (octets "HEAD")) with
  | error e => simp [hfirst, bind, Except.bind] at hok
  | ok found? =>
    simp only [hfirst, bind, Except.bind, pure, Except.pure] at hok
    obtain ⟨⟨name, other'⟩, rfl, rfl⟩ := Option.map_eq_some_iff.mp (Except.ok.inj hok)
    obtain ⟨hmem, hid⟩ := Refs.Table.of_first? hfirst
    have hnames : ∀ name ∈ RefName.expansions (octets "HEAD"), name = octets "HEAD" ∨
        (∀ c ∈ name, c.toNat < 256) ∧ ∃ rest, name = octets "refs/" ++ rest := by
      rw [RefName.expansions]
      simp only [List.forall_mem_cons]
      refine ⟨.inl trivial, .inr ⟨forall_mem_of_all (by decide), _, rfl⟩,
        .inr ⟨forall_mem_of_all (by decide), octets "tags/HEAD", rfl⟩,
        .inr ⟨forall_mem_of_all (by decide), octets "heads/HEAD", rfl⟩,
        .inr ⟨forall_mem_of_all (by decide), octets "remotes/HEAD", rfl⟩,
        .inr ⟨forall_mem_of_all (by decide), octets "remotes/HEAD/HEAD", rfl⟩, by simp⟩
    exact h.follow_eq ht (hnames name hmem) (Refs.Table.of_id? hid)

theorem meaning?_head_eq (hmissing : Refs.readLoose d git ref = .error .missing) :
    meaning? d git (octets "HEAD") = .ok (some id) := by
  obtain ⟨t, htable, ht, hmem⟩ := h.table_eq
  have hvalue : t.value ref = .ok (.commit id) := by
    rw [Refs.Table.value, ht.1, ht.2.1, hmissing]
    exact h.packedValue_ref ht hmem _
  have hfollow : t.follow Refs.Table.linkLimit (octets "HEAD") = .ok id := by
    rw [Refs.Table.linkLimit, Refs.Table.follow, if_neg (by decide), h.value_head ht]
    split_ifs with hbranch
    · show t.follow 4 ref = .ok id
      rw [Refs.Table.follow, if_neg (by simp [h.ref.valid]), hvalue]
      rfl
    · rfl
  have hid : t.id? (octets "HEAD") = .ok (some id) := by
    rw [Refs.Table.id?, hfollow]
  rw [meaning?, htable, RefName.expansions]
  simp [Refs.Table.first?, hid, bind, Except.bind, pure, Except.pure]

end HasRepository

end reading

theorem enclosing?_of_own {d : Disk} {place : Place} {git : Bytes}
    (h : Repository.find? d (Path.below (Disk.pathOf place) [Repository.gitName]) = some git) :
    enclosing? d place.reverse = some git := by
  have hown : enclosing?.ownRepository? d place.reverse = some git := by
    simp [enclosing?.ownRepository?, h]
  cases hplace : place.reverse with
  | nil =>
    rw [hplace] at hown
    exact hown
  | cons n above =>
    rw [hplace] at hown
    simp [enclosing?, hown]

/-- A directory holds a clone of a commit: its tree, and a repository with its head there. -/
def IsClone (commit : CommitId) (tree es : Entries) : Prop :=
  ∃ source ref id, RefName.IsRef ref ∧ Refs.IsId id ∧ commit = ⟨String.ofList id⟩ ∧
    es = Entries.insert Repository.gitName (.dir 0o755 (cloneRepository source ref id)) tree

/-- What is cloned under the name of a branch is a branch of that name, or a tag. -/
theorem of_branchOrTag? {d : Disk} {source : Bytes} {branch : String} {ref id : Octets}
    (h : branchOrTag? d source branch = .ok (some (ref, id))) :
    (ref = RefName.ofBranch branch ∨ ref = octets ("refs/tags/" ++ branch)) ∧
      RefName.IsRef ref ∧ Refs.IsId id := by
  rw [branchOrTag?] at h
  simp only [bind, Except.bind, throw, throwThe, MonadExceptOf.throw] at h
  split at h
  · cases h
  next t _ =>
  split_ifs at h
  split at h
  · cases h
  split at h
  · cases h
  obtain ⟨hmem, hid⟩ := Refs.Table.of_first? h
  have hfollow := Refs.Table.of_follow (Refs.Table.of_id? hid)
  have hmem' := (List.mem_filter.mp hmem).1
  simp only [List.mem_cons, List.not_mem_nil, or_false] at hmem'
  refine ⟨hmem', ⟨hfollow.2, ?_, ?_⟩, hfollow.1⟩
  · rcases hmem' with rfl | rfl <;> exact fun c hc => toNat_lt_of_mem_octets hc
  · rcases hmem' with rfl | rfl
    · exact ⟨octets "heads/" ++ octets branch, by
        rw [RefName.ofBranch, octets_append, ← List.append_assoc]; rfl⟩
    · exact ⟨octets "tags/" ++ octets branch, by rw [octets_append, ← List.append_assoc]; rfl⟩

theorem Clones.isClone {w : World} {repo : Bytes} {branch : String} {commit : CommitId}
    {tree es : Entries} (h : w.Clones repo branch commit tree es) : IsClone commit tree es := by
  obtain ⟨source, ref, id, -, hfound, rfl, -, rfl⟩ := h
  obtain ⟨-, hr, hid⟩ := of_branchOrTag? hfound
  exact ⟨source, ref, id, hr, hid, rfl, rfl⟩

end World

/-- A commit id is read as it was written. -/
theorem CommitId.ofString_firstLine {id : Octets} (h : Refs.IsId id) :
    ofString (firstLine (String.ofList (Utf8.lossy (Utf8.ofString (String.ofList id ++ "\n"))))) =
      ⟨String.ofList id⟩ := by
  have hdigit : ∀ c ∈ id, c.toNat < 0x80 ∧ isBlank c = false ∧ c ≠ '\n' ∧ c ≠ '\r' := fun c hc =>
    (forall_mem_of_all (by decide) : ∀ c ∈ "0123456789abcdef".toList,
      c.toNat < 0x80 ∧ isBlank c = false ∧ c ≠ '\n' ∧ c ≠ '\r') c (h.digits c hc)
  have hascii : ∀ c ∈ id ++ ['\n'], c.toNat < 0x80 := by
    intro c hc
    rcases List.mem_append.mp hc with hc | hc
    · exact (hdigit c hc).1
    · rw [List.mem_singleton.mp hc]
      decide
  have htrim : trimBlank id = id := by
    have hdrop : ∀ l : List Char, (∀ c ∈ l, isBlank c = false) → l.dropWhile isBlank = l := by
      intro l hl
      cases l with
      | nil => rfl
      | cons c l => rw [List.dropWhile_cons_of_neg (by simp [hl c])]
    rw [trimBlank, hdrop id fun c hc => (hdigit c hc).2.1,
      hdrop _ fun c hc => (hdigit c (List.mem_reverse.mp hc)).2.1, List.reverse_reverse]
  have hlines : lines (id ++ ['\n']) = [id] := by
    have hlast : id.getLast? ≠ some '\r' := fun hr =>
      (hdigit '\r' (List.mem_of_getLast? hr)).2.2.2 rfl
    rw [lines, splitAtSep_append_cons, splitAtSep_of_notMem fun hc => (hdigit _ hc).2.2.1 rfl]
    simp [splitAtSep, endLines, dropReturn, hlast]
  have hout : Utf8.lossy (Utf8.ofString (String.ofList id ++ "\n")) = id ++ ['\n'] := by
    rw [Utf8.ofString, String.toList_append, String.toList_ofList]
    exact Utf8.lossy_encode_ascii hascii
  rw [hout, firstLine, String.toList_ofList, hlines, List.headD_cons, htrim, ofString, trimmed,
    String.toList_ofList, htrim]

namespace History

open World

variable {w w' : World}

theorem of_head (hf : w.faults = []) {dir : Bytes} {commit : CommitId}
    (h : head dir w = (w', .ok commit)) : ∃ out,
      (w.headOf dir).output (GitRun.head dir).command.text = .ok out ∧
        .ofString (firstLine out) = commit := by
  rw [head, World.git_eq hf] at h
  cases hout : (w.headOf dir).output (GitRun.head dir).command.text with
  | error f =>
    rw [show w.runUndisturbed (.head dir) = (w, w.headOf dir) from rfl, hout] at h
    cases h
  | ok out =>
    rw [show w.runUndisturbed (.head dir) = (w, w.headOf dir) from rfl, hout] at h
    exact ⟨out, rfl, Except.ok.inj (Prod.mk.inj h).2⟩

/-- Where a clone can be entered, its repository is found. -/
theorem hasRepository_of_locate (hs : w.disk.root.IsSound) {dir : Bytes} {place : Place} {x : Node}
    (habs : Path.isAbsolute dir = true) (hloc : w.disk.locate dir = .ok (place, x))
    (hroom : (Disk.pathOf place).length + 32 ≤ Disk.pathLimit) {source : Bytes} {ref id : Octets}
    {tree : Entries} (hr : RefName.IsRef ref) (hid : Refs.IsId id)
    (hget : w.disk.root.get? place = some (.dir 0o755
      (Entries.insert Repository.gitName (.dir 0o755 (cloneRepository source ref id)) tree))) :
    HasRepository w.disk (Path.below (Disk.pathOf place) [Repository.gitName])
      (place ++ [Repository.gitName]) source ref id := by
  have hlen := Disk.length_le_of_locate habs hloc
  have hpath := Disk.leadsTo_pathOf hlen (hs.names hget) ⟨_, _, hget⟩
  have hgit : w.disk.root.get? (place ++ [Repository.gitName]) =
      some (.dir 0o755 (cloneRepository source ref id)) := by
    rw [Node.get?_append, hget, Option.bind_some, Node.get?_dir_cons, Entries.find?_insert_self]
    rfl
  refine ⟨hpath.down (by decide) (spells_below hpath.ne_nil hpath.nul (by simp) (by decide))
    ⟨_, _, hgit⟩, hgit, hr, hid, ?_⟩
  have hle := length_join_le (Disk.pathOf place) Repository.gitName
  have hname : Repository.gitName.length = 4 := by decide
  rw [Path.below, joinWith]
  omega

theorem head_of_isClone (hs : w.disk.root.IsSound) (hf : w.faults = []) {dir : Bytes} {place : Place}
    (habs : Path.isAbsolute dir = true) (hl : w.disk.LeadsTo dir place)
    (hroom : (Disk.pathOf place).length + 32 ≤ Disk.pathLimit) {commit head : CommitId}
    {tree es : Entries} (hget : w.disk.root.get? place = some (.dir 0o755 es))
    (hclone : IsClone commit tree es) (h : History.head dir w = (w', .ok head)) : head = commit := by
  obtain ⟨source, ref, id, hr, hid, rfl, rfl⟩ := hclone
  obtain ⟨out, hout, rfl⟩ := of_head hf h
  have hsaid : ∀ text, (Finished.fatal text).output (GitRun.head dir).command.text ≠ .ok out := by
    intro text hok
    cases Finished.code_of_output_ok hok
  rw [headOf] at hout
  rcases hl.locate_cases with hlong | ⟨mode, es', hget', hloc⟩
  · rw [hlong] at hout
    exact absurd hout (hsaid _)
  have hrepository := hasRepository_of_locate hs habs hloc hroom hr hid hget
  rw [hloc] at hout
  dsimp only at hout
  rw [enclosing?_of_own hrepository.find?_eq] at hout
  dsimp only at hout
  cases hmeaning : meaning? w.disk (Path.below (Disk.pathOf place) [Repository.gitName])
      (octets "HEAD") with
  | error e =>
    rw [hmeaning] at hout
    exact absurd hout (hsaid _)
  | ok id? =>
    rw [hmeaning] at hout
    cases id? with
    | none => exact absurd hout (hsaid _)
    | some other =>
      obtain rfl := hrepository.meaning?_head hmeaning
      obtain rfl : String.ofList (Utf8.lossy (Utf8.ofString (String.ofList other ++ "\n"))) = out :=
        Except.ok.inj hout
      exact CommitId.ofString_firstLine hid

/-- The head of a clone is found if nothing is in the way of its list of packed refs. -/
theorem head_eq_of_locate (hs : w.disk.root.IsSound) (hf : w.faults = []) {dir : Bytes}
    {place : Place} {mode : Nat} {es : Entries} (habs : Path.isAbsolute dir = true)
    (hloc : w.disk.locate dir = .ok (place, .dir mode es))
    (hroom : (Disk.pathOf place).length + 32 ≤ Disk.pathLimit) {source : Bytes} {ref id : Octets}
    {tree : Entries} (hr : RefName.IsRef ref) (hid : Refs.IsId id)
    (hget : w.disk.root.get? place = some (.dir 0o755
      (Entries.insert Repository.gitName (.dir 0o755 (cloneRepository source ref id)) tree)))
    (hmissing : Refs.readLoose w.disk (Path.below (Disk.pathOf place) [Repository.gitName]) ref =
      .error .missing) : History.head dir w = (w, .ok ⟨String.ofList id⟩) := by
  have hrepository := hasRepository_of_locate hs habs hloc hroom hr hid hget
  have hsaid : w.headOf dir = .said (String.ofList id ++ "\n") := by
    rw [headOf, hloc]
    dsimp only
    rw [enclosing?_of_own hrepository.find?_eq]
    dsimp only
    rw [hrepository.meaning?_head_eq hmissing]
  rw [head, World.git_eq hf, show w.runUndisturbed (.head dir) = (w, w.headOf dir) from rfl, hsaid]
  exact congrArg (fun commit => (w, Except.ok commit)) (CommitId.ofString_firstLine hid)

end History

end Depot
