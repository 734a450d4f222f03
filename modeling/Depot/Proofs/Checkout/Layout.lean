import Depot.Checkout.Machine
import Depot.Proofs.Archive.Hash
import Depot.Proofs.Files.Growth

/-!
What a cache root holds: one directory of scratch clones, one of archives being built, and one of
published archives. Scratch directories are numbered, so no two of them have one path or one place.
-/

namespace Depot

open Files

/-- The directories of a cache root. -/
inductive Area where
  | clones | works | archives

namespace Area

def name : Area → Name
  | clones => Utf8.ofString "git-clones"
  | works => Utf8.ofString "archives-temp"
  | archives => Utf8.ofString "archives"

theorem isName (a : Area) : IsName a.name := by cases a <;> decide

theorem name_injective {a b : Area} (h : a.name = b.name) : a = b := by
  cases a <;> cases b <;> first | rfl | exact absurd h (by decide)

end Area

namespace Site

variable (s : Site)

def areaPath (a : Area) : Bytes := Path.join s.cacheRoot a.name

theorem archivePath_eq (h : ArchiveHash) :
    s.archivePath h = Path.join (s.areaPath .archives) h.name := rfl

theorem dirs_eq : s.dirs = [Area.clones, .works, .archives].map s.areaPath := rfl

end Site

/-- What a scratch directory is for. -/
inductive Purpose where
  | clone | work

namespace Purpose

def area : Purpose → Area
  | clone => .clones
  | work => .works

def word : Purpose → String
  | clone => "clone-"
  | work => "archive-"

theorem mem_word (p : Purpose) : ∀ c ∈ p.word.toList, c ∈ "archive-clone-".toList := by
  cases p <;> exact forall_mem_of_all (by decide)

end Purpose

/-- A scratch directory. -/
structure Scratch where
  purpose : Purpose
  number : Nat

namespace Scratch

def digits (n : Nat) : List Char := List.replicate (6 - (toString n).length) '0' ++ Nat.toDigits 10 n

theorem digits_injective {m n : Nat} (h : digits m = digits n) : m = n := by
  have hvalue : ∀ k, Nat.ofDigitChars 10 (digits k) 0 = k := by
    intro k
    rw [digits, Nat.ofDigitChars_append, Nat.ofDigitChars_replicate_zero, Nat.mul_zero,
      Nat.ofDigitChars_ten_toDigits]
  rw [← hvalue m, h, hvalue]

theorem isDigit_of_mem_digits {n : Nat} {c : Char} (h : c ∈ digits n) : c.isDigit := by
  rcases List.mem_append.mp h with h | h
  · rw [List.eq_of_mem_replicate h]
    decide
  · exact Nat.isDigit_of_mem_toDigits (by decide) (by decide) h

variable (σ : Scratch)

def text : String :=
  σ.purpose.word ++ String.ofList (List.replicate (6 - (toString σ.number).length) '0') ++
    toString σ.number

def name : Name := Utf8.ofString σ.text

theorem toList_text : σ.text.toList = σ.purpose.word.toList ++ digits σ.number := by
  rw [text, String.toList_append, String.toList_append, String.toList_ofList, List.append_assoc,
    digits, Nat.toString_eq_ofList_toDigits, String.toList_ofList]

theorem mem_toList_text {c : Char} (h : c ∈ σ.text.toList) : c ∈ "archive-clone-".toList ∨
    c.isDigit := by
  rw [toList_text] at h
  rcases List.mem_append.mp h with h | h
  · exact .inl (σ.purpose.mem_word c h)
  · exact .inr (isDigit_of_mem_digits h)

theorem isAscii_toList_text : ∀ c ∈ σ.text.toList, c.toNat < 0x80 := by
  intro c hc
  rcases σ.mem_toList_text hc with h | h
  · exact (forall_mem_of_all (by decide) : ∀ c ∈ "archive-clone-".toList, c.toNat < 0x80) c h
  · have hle : c.toNat ≤ '9'.toNat := (Char.isDigit_iff_toNat.mp h).2
    exact Nat.lt_of_le_of_lt hle (by decide)

theorem isName : IsName σ.name := by
  have hnot : ∀ c ∈ ['/', '\x00', '.'], c ∉ σ.text.toList := by
    intro c hc hmem
    rcases σ.mem_toList_text hmem with h | h
    · exact (forall_mem_of_all (by decide) : ∀ c ∈ ['/', '\x00', '.'], c ∉ "archive-clone-".toList)
        c hc h
    · exact (forall_mem_of_all (by decide) : ∀ c ∈ ['/', '\x00', '.'], ¬ c.isDigit) c hc h
  have hdot := hnot '.' (by simp)
  refine Path.isName_encode (hnot '/' (by simp)) (hnot '\x00' (by simp)) ?_
    (fun heq => hdot (by simp [heq])) (fun heq => hdot (by simp [heq]))
  rw [toList_text]
  cases σ.purpose <;> simp [Purpose.word]

theorem name_injective {σ τ : Scratch} (h : σ.name = τ.name) : σ = τ := by
  have htext : σ.text.toList = τ.text.toList := Utf8.encode_ascii_inj τ.isAscii_toList_text h
  rw [toList_text, toList_text] at htext
  obtain ⟨p, m⟩ := σ
  obtain ⟨q, n⟩ := τ
  cases p <;> cases q
  · exact congrArg _ (digits_injective (List.append_cancel_left htext))
  · simp [Purpose.word] at htext
  · simp [Purpose.word] at htext
  · exact congrArg _ (digits_injective (List.append_cancel_left htext))

/-- The path that a scratch directory is known by. -/
def path (site : Site) (cwd : Place) : Bytes :=
  Path.join (Disk.pathOf cwd) (Path.join (site.areaPath σ.purpose.area) σ.name)

end Scratch

/-- Where a cache root is: at names, which may be missing, below a directory. -/
structure Seat where
  home : Place
  names : Place

namespace Seat

variable (seat : Seat)

def top : Place := seat.home ++ seat.names

def area (a : Area) : Place := seat.top ++ [a.name]

/-- An entry of one of the directories. -/
def entry (a : Area) (n : Name) : Place := seat.area a ++ [n]

def scratch (σ : Scratch) : Place := seat.entry σ.purpose.area σ.name

def archive (n : Name) : Place := seat.entry .archives n

theorem home_append_names (a : Area) : seat.home ++ (seat.names ++ [a.name]) = seat.area a := by
  rw [area, top, List.append_assoc]

section

variable {seat : Seat}

theorem eq_of_entry_append {a b : Area} {m n : Name} {rest : Place}
    (h : seat.entry a m <+: seat.entry b n ++ rest) : a = b ∧ m = n := by
  rw [entry, entry, area, area, List.append_assoc, List.append_assoc, List.append_assoc,
    List.prefix_append_right_inj] at h
  simp only [List.cons_append, List.nil_append, List.cons_prefix_cons] at h
  exact ⟨Area.name_injective h.1, h.2.1⟩

theorem eq_of_scratch_append {σ τ : Scratch} {rest : Place}
    (h : seat.scratch σ <+: seat.scratch τ ++ rest) : σ = τ :=
  Scratch.name_injective (eq_of_entry_append h).2

theorem scratch_not_above_archive {σ : Scratch} {n : Name} {rest : Place} :
    ¬ seat.scratch σ <+: seat.archive n ++ rest := by
  intro h
  have harea := (eq_of_entry_append h).1
  cases hp : σ.purpose <;> rw [hp] at harea <;> cases harea

theorem archive_not_above_scratch {σ : Scratch} {n : Name} {rest : Place} :
    ¬ seat.archive n <+: seat.scratch σ ++ rest := by
  intro h
  have harea := (eq_of_entry_append h).1
  cases hp : σ.purpose <;> rw [hp] at harea <;> cases harea

/-- The directories and those above them are no entries. -/
theorem entry_not_above {a b : Area} {n : Name} {part : Place} (h : part <+: seat.names ++ [b.name]) :
    ¬ seat.entry a n <+: seat.home ++ part := by
  intro hp
  have h1 := hp.length_le
  have h2 := h.length_le
  simp only [entry, area, top, List.length_append, List.length_singleton] at h1 h2
  omega

end

/-- All that differs between two trees is within the directories. -/
def SameAround (a b : Node) : Prop :=
  ∀ other, (∀ area n, ¬ seat.entry area n <+: other) → a.look other = b.look other

/-- The cache root is where it is said to be, under both of its spellings, with nothing but
directories in the way. -/
structure Holds (site : Site) (d : Disk) : Prop where
  direct : ∃ base, d.LeadsTo base seat.home ∧ Extends base seat.names site.cacheRoot
  absolute : ∃ base, d.LeadsTo base seat.home ∧
    Extends base seat.names (Path.join (Disk.pathOf d.cwd) site.cacheRoot)
  isOpen : ∀ a : Area, d.root.IsOpen seat.home (seat.names ++ [a.name])

namespace SameAround

variable {seat : Seat} {a b : Node}

theorem look_part (h : seat.SameAround a b) (area : Area) {part : Place}
    (hpart : part <+: seat.names ++ [area.name]) :
    a.look (seat.home ++ part) = b.look (seat.home ++ part) :=
  h _ fun _ _ => entry_not_above hpart

theorem sameOff (h : seat.SameAround a b) : a.SameOff seat.home b := by
  refine fun other hother => h other fun area n hp => hother ?_
  rw [entry, Seat.area, top, List.append_assoc, List.append_assoc] at hp
  exact (List.prefix_append _ _).trans hp

theorem isDirAt_area (h : seat.SameAround a b) (area : Area) :
    a.IsDirAt (seat.area area) ↔ b.IsDirAt (seat.area area) := by
  rw [← home_append_names]
  exact Node.isDirAt_of_look_eq (h.look_part area List.prefix_rfl)

end SameAround

namespace Holds

variable {seat : Seat} {site : Site} {d d' : Disk}

theorem frame (h : seat.Holds site d) (hcwd : d'.cwd = d.cwd)
    (hsame : seat.SameAround d.root d'.root) : seat.Holds site d' := by
  have hleads : ∀ {base}, d.LeadsTo base seat.home → d'.LeadsTo base seat.home := by
    intro base hl
    refine hl.frame hcwd hsame.sameOff ?_
    have hlook := hsame.look_part .clones List.nil_prefix
    rw [List.append_nil] at hlook
    exact (Node.isDirAt_of_look_eq hlook).mp hl.dir
  obtain ⟨base, hl, he⟩ := h.direct
  obtain ⟨base', hl', he'⟩ := h.absolute
  refine ⟨⟨base, hleads hl, he⟩, ⟨base', hleads hl', hcwd ▸ he'⟩, fun a part hpart => ?_⟩
  have hlook := hsame.look_part a hpart
  rcases h.isOpen a part hpart with hnone | hdir
  · rw [← Node.look_eq_none_iff, hlook, Node.look_eq_none_iff] at hnone
    exact .inl hnone
  · exact .inr ((Node.isDirAt_of_look_eq hlook).mp hdir)

theorem extends_area (h : seat.Holds site d) (a : Area) :
    ∃ base, d.LeadsTo base seat.home ∧ Extends base (seat.names ++ [a.name]) (site.areaPath a) := by
  obtain ⟨base, hl, he⟩ := h.direct
  exact ⟨base, hl, he.join a.isName⟩

theorem grown {a : Area} (h : seat.Holds site d) (hs : d.root.IsSound)
    (hmake : d.makeDirs (site.areaPath a) = .ok d') :
    d.Grows d' seat.home (seat.names ++ [a.name]) ∧ seat.Holds site d' := by
  obtain ⟨base, hl, he⟩ := h.extends_area a
  have hg := Disk.makeDirs_grows hs hl (by simp) he (h.isOpen a) hmake
  have hleads : ∀ {base}, d.LeadsTo base seat.home → d'.LeadsTo base seat.home := fun hl =>
    hl.frame hg.cwd hg.grown.sameOff (hg.grown.isDirAt hl.dir)
  obtain ⟨base₁, hl₁, he₁⟩ := h.direct
  obtain ⟨base₂, hl₂, he₂⟩ := h.absolute
  exact ⟨hg, ⟨base₁, hleads hl₁, he₁⟩, ⟨base₂, hleads hl₂, hg.cwd ▸ he₂⟩,
    fun b => hg.grown.isOpen (h.isOpen b)⟩

theorem names_archive (h : seat.Holds site d) (hdir : d.root.IsDirAt (seat.area .archives)) {n : Name}
    (hn : IsName n) : d.Names (Path.join (site.areaPath .archives) n) (seat.area .archives) n := by
  obtain ⟨base, hl, he⟩ := h.extends_area .archives
  rw [← home_append_names] at hdir ⊢
  exact hl.names hn (he.join hn).spells hdir

theorem extends_scratch (h : seat.Holds site d) (σ : Scratch) :
    ∃ base, d.LeadsTo base seat.home ∧
      Extends base (seat.names ++ [σ.purpose.area.name] ++ [σ.name]) (σ.path site d.cwd) := by
  obtain ⟨base, hl, he⟩ := h.absolute
  obtain ⟨base', -, he'⟩ := h.direct
  have hpath : σ.path site d.cwd =
      Path.join (Path.join (Path.join (Disk.pathOf d.cwd) site.cacheRoot) σ.purpose.area.name)
        σ.name := by
    rw [Scratch.path, Site.areaPath, join_assoc (join_ne_nil he'.spells.ne_nil) σ.isName.isAbsolute,
      join_assoc he'.spells.ne_nil σ.purpose.area.isName.isAbsolute]
  rw [hpath]
  exact ⟨base, hl, (he.join σ.purpose.area.isName).join σ.isName⟩

/-- No two scratch directories have one path. -/
theorem eq_of_path_eq (h : seat.Holds site d) {σ τ : Scratch}
    (hpath : σ.path site d.cwd = τ.path site d.cwd) : σ = τ := by
  obtain ⟨_, -, he⟩ := h.extends_scratch σ
  obtain ⟨_, -, he'⟩ := h.extends_scratch τ
  have hlast := he.spells.getLast?_hops
  rw [hpath, he'.spells.getLast?_hops] at hlast
  exact Scratch.name_injective (Hop.name.inj (Option.some.inj hlast)).symm

theorem names_scratch (h : seat.Holds site d) {σ : Scratch}
    (hdir : d.root.IsDirAt (seat.area σ.purpose.area)) :
    d.Names (σ.path site d.cwd) (seat.area σ.purpose.area) σ.name := by
  obtain ⟨base, hl, he⟩ := h.extends_scratch σ
  rw [← home_append_names] at hdir ⊢
  exact hl.names σ.isName he.spells hdir

theorem length_le_of_makeDir (h : seat.Holds site d) {σ : Scratch} {mode : Nat}
    (hdir : d.root.IsDirAt (seat.area σ.purpose.area))
    (hmake : d.makeDir (σ.path site d.cwd) mode = .ok d') :
    ∀ m ∈ seat.names ++ [σ.purpose.area.name] ++ [σ.name], m.length ≤ 255 := by
  obtain ⟨base, hl, he⟩ := h.extends_scratch σ
  rw [← home_append_names] at hdir
  exact hl.length_le_of_makeDir σ.isName he.spells hdir hmake

theorem leads_scratch (h : seat.Holds site d) {σ : Scratch}
    (hlen : ∀ m ∈ seat.names ++ [σ.purpose.area.name] ++ [σ.name], m.length ≤ 255)
    (hdir : d.root.IsDirAt (seat.scratch σ)) :
    d.LeadsTo (σ.path site d.cwd) (seat.scratch σ) := by
  obtain ⟨base, hl, he⟩ := h.extends_scratch σ
  rw [scratch, entry, ← home_append_names, List.append_assoc] at hdir ⊢
  exact hl.down hlen he.spells hdir

end Holds

end Seat

end Depot
