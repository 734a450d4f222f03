import Depot.Proofs.Checkout.Course
import Depot.Proofs.History.Offer

/-!
A branch is fetched into one scratch directory or another. The names of scratch directories for one
purpose are equally long, so what a repository offers is cloned into the one as it is into the other,
has the same head there, and is stripped of its repository.
-/

namespace Depot

open Files

/-! ### The head of a clone -/

namespace Files.Disk

variable {d d' : Disk} {top top' names : Place} {tree : Node}

/-- What is said of a node of a tree that is no link on its way. -/
theorem Beside.lstat_eq (h : Beside d d' top top' tree) (hnames : ∀ n ∈ names, IsName n)
    (hin : (⟨linkLimit, [], names.map .name⟩ : Way).IsInside tree) :
    d.lstat (pathOf (top ++ names)) = d'.lstat (pathOf (top' ++ names)) := by
  obtain ⟨told, hleft, hright⟩ := h.find hnames hin false
  rw [lstat, lstat, hleft, hright]
  cases told with
  | error e => rfl
  | ok found =>
    obtain ⟨here, node?⟩ := found
    cases node? <;> rfl

end Files.Disk

namespace World

variable {d d' : Disk} {place place' : Place} {source : Bytes} {ref id : Octets}

abbrev gitAt (place : Place) : Bytes := Path.below (Disk.pathOf place) [Repository.gitName]

/-- Two clones whose paths are equally long say the same of the file of a ref. -/
theorem HasRepository.readLoose_eq
    (h : HasRepository d (gitAt place) (place ++ [Repository.gitName]) source ref id)
    (hb : Disk.Beside d d' (place ++ [Repository.gitName, Repository.refsName])
      (place' ++ [Repository.gitName, Repository.refsName])
      (.dir 0o755 [(Utf8.ofString "heads", .dir 0o755 []), (Utf8.ofString "tags", .dir 0o755 [])]))
    {name : Octets} (hname : RefName.IsRef name) :
    Refs.readLoose d (gitAt place) name = Refs.readLoose d' (gitAt place') name := by
  obtain ⟨rest, hfiles⟩ := hname.fileNames_eq
  have hnames := RefName.isName_of_mem_fileNames hname.valid hname.bytes
  rw [hfiles] at hnames
  have hpath : ∀ p : Place, (∀ n ∈ p ++ [Repository.gitName, Repository.refsName], IsName n) →
      Path.join (gitAt p) (Octets.toBytes name) =
        Disk.pathOf (p ++ [Repository.gitName, Repository.refsName] ++ rest) := by
    intro p hp
    have hgit : ∀ n ∈ p ++ [Repository.gitName], IsName n := fun n hn => hp n (by
      rcases List.mem_append.mp hn with hn | hn <;> simp_all)
    have hjoin : Path.join (gitAt p) (Octets.toBytes name) =
        Path.below (gitAt p) (Repository.refsName :: rest) := by
      rw [Path.below, ← hfiles, RefName.joinWith_fileNames hname.bytes]
    rw [hjoin, gitAt, Disk.below_pathOf (fun n hn => hgit n (by simp [hn])) (by simp)
      (fun n hn => hgit n (by simp [hn])), Disk.below_pathOf hgit (by simp) hnames]
    simp
  have hin : (⟨linkLimit, [], rest.map .name⟩ : Way).IsInside (.dir 0o755
      [(Utf8.ofString "heads", .dir 0o755 []), (Utf8.ofString "tags", .dir 0o755 [])]) := by
    refine Way.isInside_of_up_notMem (fun more target hx => ?_) (by simp)
    obtain ⟨mode, es, hdir⟩ := isDir_of_refs hx
    cases hdir
  have hlstat := hb.lstat_eq (fun n hn => hnames n (List.mem_cons_of_mem _ hn)) hin
  rw [← hpath place hb.left.names, ← hpath place' hb.right.names] at hlstat
  rw [Refs.readLoose, Refs.readLoose, ← hlstat]
  cases hx : d.lstat (Path.join (gitAt place) (Octets.toBytes name)) with
  | error e => cases e <;> rfl
  | ok x =>
    have hdir := h.isDir_of_lstat_ref hname hx
    cases x with
    | dir mode es => rfl
    | _ => cases hdir

/-- A scratch directory with a clone in it. -/
structure HasClone (site : Site) (seat : Seat) (w : World) (σ : Scratch) (source : Bytes)
    (ref id : Octets) (tree : Entries) : Prop where
  sound : w.IsSound site seat
  made : w.Made site seat (σ.path site w.disk.cwd) σ
  isRef : RefName.IsRef ref
  isId : Refs.IsId id
  get : w.disk.root.get? (seat.checkout σ) = some (.dir 0o755
    (Entries.insert Repository.gitName (.dir 0o755 (cloneRepository source ref id)) tree))

namespace HasClone

variable {site : Site} {seat : Seat} {w w' : World} {σ τ : Scratch} {tree tree' : Entries}

theorem leads (h : w.HasClone site seat σ source ref id tree) :
    w.disk.LeadsTo (Build.checkout (σ.path site w.disk.cwd)) (seat.checkout σ) :=
  h.sound.leads_checkout h.made ⟨_, _, h.get⟩

section

variable (h : w.HasClone site seat σ source ref id tree)
  (hlimit : (Build.checkout (σ.path site w.disk.cwd)).length ≤ Disk.pathLimit)
include h hlimit

theorem short : ∀ n ∈ seat.checkout σ, n.length ≤ 255 := by
  have hloc := h.leads.locate_eq h.get
  rw [if_pos hlimit] at hloc
  refine Disk.length_le_of_locate ?_ hloc
  have hpath := σ.isAbsolute_path site w.disk.cwd
  rw [Build.checkout, isAbsolute_join (fun hnil => ?_) (by decide), hpath]
  rw [hnil] at hpath
  cases hpath

variable (hroom : seat.HasRoom)
include hroom

theorem hasRepository : HasRepository w.disk (gitAt (seat.checkout σ))
    (seat.checkout σ ++ [Repository.gitName]) source ref id := by
  have hleads := Disk.leadsTo_pathOf (h.short hlimit) (h.sound.tree.names h.get) ⟨_, _, h.get⟩
  have hloc := hleads.locate_eq h.get
  have hlong := hroom.checkout (h.made.length σ.name (by simp))
  have hshort : (Disk.pathOf (seat.checkout σ)).length ≤ Disk.pathLimit := Nat.le_of_add_right_le hlong
  rw [if_pos hshort] at hloc
  exact History.hasRepository_of_locate h.sound.tree (by simp [Disk.pathOf, Path.isAbsolute]) hloc hlong
    h.isRef h.isId h.get

theorem headOf_eq : w.headOf (Build.checkout (σ.path site w.disk.cwd)) =
    match meaning? w.disk (gitAt (seat.checkout σ)) (octets "HEAD") with
    | .error _ => damagedList
    | .ok (some id) => .said (String.ofList id ++ "\n")
    | .ok none => .fatal "ambiguous argument 'HEAD': unknown revision" := by
  have hown := enclosing?_of_own (h.hasRepository hlimit hroom).find?_eq
  rw [headOf, h.leads.locate_eq h.get, if_pos hlimit]
  dsimp only
  cases hmeaning : meaning? w.disk (gitAt (seat.checkout σ)) (octets "HEAD") with
  | error e => simp only [hown, hmeaning]
  | ok id? => cases id? <;> simp only [hown, hmeaning]

end

theorem strip_eq (h : w.HasClone site seat σ source ref id tree) :
    w.disk.remove (Path.below (Build.checkout (σ.path site w.disk.cwd)) [Repository.gitName]) =
      if (Path.below (Build.checkout (σ.path site w.disk.cwd)) [Repository.gitName]).length ≤
          Disk.pathLimit then
        .ok (w.disk.alter (seat.checkout σ ++ [Repository.gitName]) fun _ => none)
      else .error .nameTooLong := by
  have hspells : Spells (Build.checkout (σ.path site w.disk.cwd)) ([] ++ [Repository.gitName])
      (Path.below (Build.checkout (σ.path site w.disk.cwd)) [Repository.gitName]) :=
    spells_below h.leads.ne_nil h.leads.nul (by simp) (by simpa using isName_gitName)
  have hfind := h.leads.arrives.find_entry hspells (by simpa using ⟨_, _, h.get⟩) false nofun
  have hgit : w.disk.root.get? (seat.checkout σ ++ [] ++ [Repository.gitName]) =
      some (.dir 0o755 (cloneRepository source ref id)) := by
    rw [List.append_nil, Node.get?_append, h.get, Option.bind_some, Node.get?_dir_cons,
      Entries.find?_insert_self]
    rfl
  have hshort : Disk.IsShort (Path.below (Build.checkout (σ.path site w.disk.cwd))
      [Repository.gitName]) ([] ++ [Repository.gitName]) ↔
      (Path.below (Build.checkout (σ.path site w.disk.cwd)) [Repository.gitName]).length ≤
        Disk.pathLimit := ⟨fun hs => hs.path, fun hs => ⟨hs, by decide⟩⟩
  rw [Disk.remove, hfind, if_congr hshort rfl rfl, hgit, List.append_nil]
  split_ifs <;> rfl

section

variable (h : w.HasClone site seat σ source ref id tree)
  (h' : w'.HasClone site seat τ source ref id tree) (hkin : σ.Kin τ)
include h h' hkin

theorem beside (hshort : ∀ n ∈ seat.checkout σ, n.length ≤ 255)
    (hshort' : ∀ n ∈ seat.checkout τ, n.length ≤ 255) :
    Disk.Beside w.disk w'.disk (seat.checkout σ ++ [Repository.gitName, Repository.refsName])
      (seat.checkout τ ++ [Repository.gitName, Repository.refsName])
      (.dir 0o755 [(Utf8.ofString "heads", .dir 0o755 []), (Utf8.ofString "tags", .dir 0o755 [])]) := by
  have hbears : ∀ {v : World} {ρ : Scratch}, v.HasClone site seat ρ source ref id tree →
      (∀ n ∈ seat.checkout ρ, n.length ≤ 255) →
      v.disk.Bears (seat.checkout ρ ++ [Repository.gitName, Repository.refsName])
        (.dir 0o755 [(Utf8.ofString "heads", .dir 0o755 []),
          (Utf8.ofString "tags", .dir 0o755 [])]) := by
    intro v ρ hv hlen
    refine ⟨by simp, ?_, ?_, ?_, rfl⟩
    · refine List.forall_mem_append.mpr ⟨hv.sound.tree.names hv.get, by decide⟩
    · exact List.forall_mem_append.mpr ⟨hlen, by decide⟩
    · rw [Node.get?_append, hv.get, Option.bind_some, Node.get?_dir_cons, Entries.find?_insert_self,
        Option.bind_some, Node.get?_dir_cons, find?_refs]
      rfl
  refine ⟨hbears h hshort, hbears h' hshort', fun names => ?_⟩
  rw [List.append_assoc, List.append_assoc]
  exact .checkout hkin seat _

variable (hcwd : w'.disk.cwd = w.disk.cwd)
include hcwd

/-- One clone can be stripped if the other can. -/
theorem strip_elsewhere {d : Disk} (hremove : w.disk.remove
      (Path.below (Build.checkout (σ.path site w.disk.cwd)) [Repository.gitName]) = .ok d) :
    ∃ d', w'.disk.remove
      (Path.below (Build.checkout (τ.path site w'.disk.cwd)) [Repository.gitName]) = .ok d' := by
  have hlength := (((Renamed.of_kin hkin site w.disk.cwd).join Phase.checkoutName).below
    [Repository.gitName]).length_eq
  rw [h.strip_eq] at hremove
  split_ifs at hremove with hlimit
  have hlimit' : (Path.below (Build.checkout (τ.path site w'.disk.cwd)) [Repository.gitName]).length ≤
      Disk.pathLimit := by
    rw [hcwd]
    exact hlength ▸ hlimit
  rw [h'.strip_eq, if_pos hlimit']
  exact ⟨_, rfl⟩

theorem head_elsewhere (hroom : seat.HasRoom) {commit : CommitId} (hhead : History.head
      (Build.checkout (σ.path site w.disk.cwd)) w = (w, .ok commit)) :
    History.head (Build.checkout (τ.path site w'.disk.cwd)) w' = (w', .ok commit) := by
  have hlength := ((Renamed.of_kin hkin site w.disk.cwd).join Phase.checkoutName).length_eq
  obtain ⟨out, hout, hcommit⟩ := History.of_head h.sound.undisturbed hhead
  have hcode := Finished.code_of_output_ok hout
  have hlimit : (Build.checkout (σ.path site w.disk.cwd)).length ≤ Disk.pathLimit := by
    by_contra hlong
    rw [headOf, h.leads.locate_eq h.get, if_neg hlong] at hcode
    cases hcode
  have hlimit' : (Build.checkout (τ.path site w'.disk.cwd)).length ≤ Disk.pathLimit := by
    rw [hcwd]
    exact hlength ▸ hlimit
  have hb := h.beside h' hkin (h.short hlimit) (h'.short hlimit')
  have hmeaning := (h.hasRepository hlimit hroom).meaning?_eq (h'.hasRepository hlimit' hroom)
    fun name hname => (h.hasRepository hlimit hroom).readLoose_eq hb hname
  have hsame : w'.headOf (Build.checkout (τ.path site w'.disk.cwd)) =
      w.headOf (Build.checkout (σ.path site w.disk.cwd)) := by
    rw [h.headOf_eq hlimit hroom, h'.headOf_eq hlimit' hroom, hmeaning]
  have hout' : (w'.headOf (Build.checkout (τ.path site w'.disk.cwd))).output
      (GitRun.head (Build.checkout (τ.path site w'.disk.cwd))).command.text = .ok out := by
    rw [Finished.output, if_pos hcode] at hout
    rw [hsame, Finished.output, if_pos hcode, hout]
  rw [History.head, World.git_eq h'.sound.undisturbed,
    show w'.runUndisturbed (.head _) = (w', w'.headOf _) from rfl]
  simp only [hout', hcommit]

end

end HasClone

/-! ### A clone into a scratch directory -/

/-- What a repository offers under the name of a branch, whatever is in the directories of the cache
root. -/
def Offers (seat : Seat) (w : World) (repo : Bytes) (branch : String)
    (offer : Option (Bytes × Except Refs.Damage (Option Offer))) : Prop :=
  ∀ d : Disk, d.root.IsSound → d.cwd = w.disk.cwd → seat.SameAround w.disk.root d.root →
    { w with disk := d }.offer? repo branch = offer

section

variable {site : Site} {seat : Seat} {w w' : World} {σ τ : Scratch} {repo : Bytes} {branch : String}
  {offer : Option (Bytes × Except Refs.Damage (Option Offer))} {mode : Nat}

theorem Offers.offer?_eq (h : w.Offers seat repo branch offer) (hs : w.disk.root.IsSound) :
    w.offer? repo branch = offer := h w.disk hs rfl fun _ _ => rfl

theorem Offers.stays (h : w.Offers seat repo branch offer) (hstays : w.Stays seat w') :
    w'.Offers seat repo branch offer := by
  intro d hs hcwd haround
  have hoffer := h d hs (hcwd.trans hstays.cwd) fun other hother =>
    (hstays.around other hother).trans (haround other hother)
  rw [← hoffer]
  simp only [offer?, knows, treeIn?, hstays.commits]

end

end World

/-- The directory for a clone can be made in a scratch directory. -/
def Scratch.Fits (σ : Scratch) (site : Site) (seat : Seat) (cwd : Place) : Prop :=
  Disk.IsShort (Build.checkout (σ.path site cwd))
    (seat.names ++ [σ.purpose.area.name] ++ [σ.name] ++ [Phase.checkoutName])

instance (σ : Scratch) (site : Site) (seat : Seat) (cwd : Place) : Decidable (σ.Fits site seat cwd) :=
  inferInstanceAs (Decidable (Disk.IsShort _ _))

theorem Scratch.Kin.fits_iff {site : Site} {seat : Seat} {σ τ : Scratch} (hkin : σ.Kin τ)
    (cwd : Place) : σ.Fits site seat cwd ↔ τ.Fits site seat cwd := by
  have hfits : ∀ {σ τ : Scratch}, σ.Kin τ → σ.Fits site seat cwd → τ.Fits site seat cwd := by
    intro σ τ hkin hσ
    have hnames : ∀ n ∈ seat.names ++ [τ.purpose.area.name] ++ [τ.name] ++ [Phase.checkoutName],
        n.length ≤ 255 := by
      have hall := hσ.names
      simp only [List.mem_append, List.mem_singleton, or_imp, forall_and, forall_eq] at hall ⊢
      rw [← hkin.purpose, ← hkin.length_name_eq]
      exact hall
    have hpath := ((Renamed.of_kin hkin site cwd).join Phase.checkoutName).length_eq
    exact ⟨hpath ▸ hσ.path, hnames⟩
  exact ⟨hfits hkin, hfits ⟨hkin.purpose.symm, hkin.few', hkin.few⟩⟩

theorem Scratch.Kin.fits_eq {σ τ : Scratch} (hkin : σ.Kin τ) (site : Site) (seat : Seat)
    {d d' : Disk} (hcwd : d'.cwd = d.cwd) :
    decide (τ.Fits site seat d'.cwd) = decide (σ.Fits site seat d.cwd) := by
  rw [hcwd]
  exact decide_eq_decide.mpr (hkin.fits_iff d.cwd).symm

theorem History.tip_of_scratches {repo : Bytes} {branch : String} {commit : CommitId} {w : World}
    (hf : w.faults = []) (h : tip repo branch w = (w, .ok commit)) (n : Nat) :
    tip repo branch { w with scratches := n } = ({ w with scratches := n }, .ok commit) := by
  refine Prod.ext (tip_fst hf) ?_
  rw [tip_scratches hf, h]

namespace World

variable {site : Site} {seat : Seat} {w w' : World} {σ τ : Scratch} {repo : Bytes} {branch : String}
  {offer : Option (Bytes × Except Refs.Damage (Option Offer))} {mode : Nat}

/-- A scratch directory with nothing in it. -/
structure HasEmpty (site : Site) (seat : Seat) (w : World) (σ : Scratch) : Prop where
  sound : w.IsSound site seat
  made : w.Made site seat (σ.path site w.disk.cwd) σ
  get : ∃ mode, w.disk.root.get? (seat.scratch σ) = some (.dir mode [])

theorem IsSound.hasEmpty (hw : w.IsSound site seat) (hareas : ∀ a, w.disk.root.IsDirAt (seat.area a))
    (hσ : σ.number = w.scratches + 1) {path : Bytes}
    (hmake : w.makeScratch (site.areaPath σ.purpose.area) σ.purpose.word = (w', .ok path)) :
    path = σ.path site w'.disk.cwd ∧ w'.HasEmpty site seat σ ∧ w.Stays seat w' := by
  obtain ⟨purpose, number⟩ := σ
  obtain rfl : number = w.scratches + 1 := hσ
  rcases makeScratch_touches hw hareas purpose hmake with ⟨e, hr, -⟩ | ⟨_, _, -, -, htouches⟩
  · cases hr
  rcases makeScratch_cases hw hareas purpose hmake with ⟨e, hr, -⟩ |
    ⟨_, hr, -, hkeeps, σ, x, hm, hget, hx⟩
  · cases hr
  obtain rfl := Except.ok.inj hr
  have hcwd := hkeeps.cwd
  have hpath := path_of_makeScratch _ hmake
  rw [← hcwd] at hpath
  obtain rfl := hkeeps.sound.seat.eq_of_path_eq (hm.path.symm.trans hpath)
  obtain ⟨mode, rfl⟩ := hx
  exact ⟨hpath, ⟨hkeeps.sound, hpath ▸ hm, mode, hget⟩, .of_touches htouches⟩

namespace HasEmpty

variable (h : w.HasEmpty site seat σ) (ho : w.Offers seat repo branch offer)
include h ho

theorem clone_eq : w.clone repo branch (Build.checkout (σ.path site w.disk.cwd)) =
    (w.leave (seat.checkout σ)
      (report repo branch (decide (σ.Fits site seat w.disk.cwd)) offer).entries?,
      (report repo branch (decide (σ.Fits site seat w.disk.cwd)) offer).finished) := by
  obtain ⟨hw, hm, mode, hget⟩ := h
  obtain ⟨base, hl, he⟩ := hw.seat.extends_scratch σ
  have hscratch : seat.scratch σ = seat.home ++ (seat.names ++ [σ.purpose.area.name] ++ [σ.name]) := by
    rw [Seat.scratch, Seat.entry, ← Seat.home_append_names, List.append_assoc]
  have hplace : seat.checkout σ = seat.home ++
      (seat.names ++ [σ.purpose.area.name] ++ [σ.name] ++ [Phase.checkoutName]) := by
    rw [Seat.checkout, hscratch, List.append_assoc]
  have hrest : ∀ n ∈ [Phase.checkoutName], IsName n := by simpa using isName_checkoutName
  have hmade := hw.touches hm hrest (f := fun _ => some (.dir 0o755 []))
    fun _ _ _ hx => Option.some.inj hx ▸ isSound_empty 0o755
  have hafter := (ho.stays (.of_touches hmade)).offer?_eq hmade.disk.sound
  have hbefore := ho.offer?_eq hw.tree
  rw [← hbefore]
  exact clone_report hw.tree hl (by simp) he isName_checkoutName hm.length (hscratch ▸ hget) hplace
    (hafter.trans hbefore.symm) decide_eq_true_iff

theorem clone_ok (hvalid : Branch.validate branch = .ok ())
    (hcode : (report repo branch (decide (σ.Fits site seat w.disk.cwd)) offer).finished.code = some 0) :
    History.clone repo branch (Build.checkout (σ.path site w.disk.cwd)) w =
      (w.leave (seat.checkout σ)
        (report repo branch (decide (σ.Fits site seat w.disk.cwd)) offer).entries?, .ok ()) := by
  have hrun : w.runUndisturbed (.clone repo branch (Build.checkout (σ.path site w.disk.cwd))) = _ :=
    h.clone_eq ho
  rw [History.clone, hvalid]
  dsimp only
  rw [git_eq h.sound.undisturbed, hrun, Finished.output, if_pos hcode]

theorem of_clone (hclone : History.clone repo branch (Build.checkout (σ.path site w.disk.cwd)) w =
      (w', .ok ())) :
    (report repo branch (decide (σ.Fits site seat w.disk.cwd)) offer).finished.code = some 0 ∧
      w' = w.leave (seat.checkout σ)
        (report repo branch (decide (σ.Fits site seat w.disk.cwd)) offer).entries? := by
  rcases History.of_clone h.sound.undisturbed hclone with ⟨-, hnot⟩ | ⟨finished, hrun, hcode⟩
  · exact absurd rfl hnot
  · rw [h.clone_eq ho] at hrun
    obtain ⟨rfl, rfl⟩ := Prod.mk.inj hrun
    exact ⟨hcode rfl, rfl⟩

theorem hasClone (hclone : History.clone repo branch (Build.checkout (σ.path site w.disk.cwd)) w =
      (w', .ok ())) {source : Bytes} {ref id : Octets} {tree : Entries} (href : RefName.IsRef ref)
    (hid : Refs.IsId id)
    (hentries : (report repo branch (decide (σ.Fits site seat w.disk.cwd)) offer).entries? =
      some (Entries.insert Repository.gitName (.dir 0o755 (cloneRepository source ref id)) tree)) :
    w'.HasClone site seat σ source ref id tree ∧ w'.disk.cwd = w.disk.cwd := by
  obtain ⟨-, hleave⟩ := h.of_clone ho hclone
  obtain ⟨hw, hm, mode, hget⟩ := h
  have hx : w.Has site seat (σ.path site w.disk.cwd) fun x => ∃ mode, x = .dir mode [] :=
    ⟨σ, _, hm, hget, mode, rfl⟩
  obtain ⟨hkeeps, -⟩ := clone_keeps hw hx hclone
  obtain ⟨hkeeps₁, hfirst⟩ := hw.put_inside hm ⟨mode, [], hget⟩ isName_checkoutName
    (isSound_empty 0o755)
  have hplace : Node.IsDirAt _ (seat.scratch σ ++ [Phase.checkoutName]) := ⟨_, _, hfirst⟩
  have hdir := hplace.of_prefix (List.prefix_append _ _)
  have hsecond := Disk.get?_put_self hkeeps₁.sound.tree
    (List.concat_ne_nil Phase.checkoutName (seat.scratch σ)) (by simpa using hdir)
    (.dir 0o755 (Entries.insert Repository.gitName (.dir 0o755 (cloneRepository source ref id)) tree)) []
  rw [List.append_nil, Node.get?_nil] at hsecond
  have hm' := hm.keeps hkeeps
  rw [← hkeeps.cwd] at hm'
  refine ⟨⟨hkeeps.sound, hm', href, hid, ?_⟩, hkeeps.cwd⟩
  rw [hleave, hentries]
  exact hsecond

end HasEmpty

theorem HoldsOnly.get?_eq_none (h : w.HoldsOnly site seat []) {a : Area} (ha : a ≠ .archives)
    (n : Name) : w.disk.root.get? (seat.entry a n) = none := by
  by_contra hsome
  obtain ⟨x, hx⟩ := Option.ne_none_iff_exists'.mp hsome
  obtain ⟨σ, hσ, -⟩ := h a n x ha hx
  cases hσ

/-- The scratch directory for the next clone. -/
def nextClone (w : World) : Scratch := ⟨.clone, w.scratches + 1⟩

/-- No scratch directory is there, all directories of the cache root can be made, and there is room for
the number of one more scratch directory. -/
structure IsClear (site : Site) (seat : Seat) (w : World) (d : Disk) : Prop where
  sound : w.IsSound site seat
  holds : w.HoldsOnly site seat []
  dirs : Workspace.ensure w.disk site.dirs = (d, .ok ())
  few : w.scratches + 1 < 10 ^ 6

namespace IsClear

variable {d d' : Disk} {w₁ : World} {scratch : Bytes}

section

variable (h : w.IsClear site seat d)
include h

theorem keeps : w.Keeps site seat [] { w with disk := d } :=
  (ensure_keeps [] h.sound (site.dirs_eq ▸ h.dirs)).1

theorem areas (a : Area) : d.root.IsDirAt (seat.area a) :=
  (ensure_keeps [] h.sound (site.dirs_eq ▸ h.dirs)).2 rfl a (by cases a <;> simp)

theorem makeScratch_eq : ∃ v : World,
    { w with disk := d }.makeScratch site.cloneArea "clone-" =
      if Disk.IsShort (w.nextClone.path site w.disk.cwd)
          (seat.names ++ [w.nextClone.purpose.area.name] ++ [w.nextClone.name]) then
        (v, .ok (w.nextClone.path site w.disk.cwd))
      else ({ w with disk := d }, .error .nameTooLong) := by
  have hfree : d.root.get? (seat.scratch w.nextClone) = none := by
    rw [Seat.scratch, ensure_entry h.sound (site.dirs_eq ▸ h.dirs)]
    exact h.holds.get?_eq_none (by simp [nextClone, Purpose.area]) _
  have hmake := World.makeScratch_eq h.keeps.sound .clone (h.areas .clones) rfl hfree
  have hcwd : d.cwd = w.disk.cwd := h.keeps.cwd
  dsimp only at hmake
  rw [hcwd] at hmake
  exact ⟨_, hmake⟩

theorem opens (hmake : { w with disk := d }.makeScratch site.cloneArea "clone-" = (w₁, .ok scratch)) :
    scratch = w.nextClone.path site w₁.disk.cwd ∧
      w₁.HasEmpty site seat w.nextClone ∧ { w with disk := d }.Stays seat w₁ :=
  @IsSound.hasEmpty _ _ _ _ w.nextClone h.keeps.sound h.areas rfl _ hmake

end

theorem kin (h : w.IsClear site seat d) (h' : w'.IsClear site seat d') :
    w.nextClone.Kin w'.nextClone := ⟨rfl, h.few, h'.few⟩

/-- A scratch directory can be made in one world if it can be in the other. -/
theorem makes_elsewhere (h : w.IsClear site seat d) (h' : w'.IsClear site seat d')
    (hcwd : w'.disk.cwd = w.disk.cwd)
    (hmake : { w with disk := d }.makeScratch site.cloneArea "clone-" = (w₁, .ok scratch)) :
    ∃ w₁' scratch', { w' with disk := d' }.makeScratch site.cloneArea "clone-" =
      (w₁', .ok scratch') := by
  obtain ⟨v, hmake₁⟩ := h.makeScratch_eq
  obtain ⟨v', hmake₁'⟩ := h'.makeScratch_eq
  have hshort : Disk.IsShort (w.nextClone.path site w.disk.cwd)
      (seat.names ++ [w.nextClone.purpose.area.name] ++ [w.nextClone.name]) := by
    by_contra hlong
    rw [if_neg hlong] at hmake₁
    cases (Prod.mk.inj (hmake.symm.trans hmake₁)).2
  rw [hcwd, if_pos ((Stage.isShort_scratch_iff (h.kin h')).mp hshort)] at hmake₁'
  exact ⟨_, _, hmake₁'⟩

end IsClear

section

variable {branch : String} {commit : CommitId} {scratch : Bytes} {d d' : Disk} {w₁ : World}
  {offer : Option (Bytes × Except Refs.Damage (Option Offer))}
  (h : w.IsClear site seat d) (h' : w'.IsClear site seat d') (hcwd : w'.disk.cwd = w.disk.cwd)
  (hoffer : { w with disk := d }.Offers seat site.repository branch offer)
  (hoffer' : { w' with disk := d' }.Offers seat site.repository branch offer)
  (htip : History.tip site.repository branch w' = (w', .ok commit))
include h h' hcwd hoffer hoffer' htip

/-- A branch that can be fetched in one world is fetched in another that offers the same. -/
theorem Fetches.elsewhere (hroom : seat.HasRoom) (hfetch : w.Fetches site branch commit scratch w₁) :
    ∃ scratch' w₁', w'.Fetches site branch commit scratch' w₁' := by
  obtain ⟨-, d₀, w₂, w₃, e, hdirs, hmake, hclone, hhead, hremove, -⟩ := hfetch
  obtain rfl : d₀ = d := (Prod.mk.inj (hdirs.symm.trans h.dirs)).1
  obtain ⟨w₂', scratch', hmake'⟩ := h.makes_elsewhere h' hcwd hmake
  obtain ⟨hpath, hempty, hstays⟩ := h.opens hmake
  obtain ⟨hpath', hempty', hstays'⟩ := h'.opens hmake'
  rw [hpath] at hclone hhead hremove
  rw [hpath'] at hmake'
  have ho := hoffer.stays hstays
  have ho' := hoffer'.stays hstays'
  have hkin := h.kin h'
  have hcwd₂ : w₂'.disk.cwd = w₂.disk.cwd := by
    rw [hstays.cwd, hstays'.cwd]
    exact h'.keeps.cwd.trans (hcwd.trans h.keeps.cwd.symm)
  have hfits := hkin.fits_eq site seat hcwd₂
  obtain ⟨hcode, -⟩ := hempty.of_clone ho hclone
  have hcode' := hcode
  rw [← hfits] at hcode'
  have hclone' := hempty'.clone_ok ho' (History.validate_of_tip htip) hcode'
  rw [← ho.offer?_eq hempty.sound.tree] at hcode
  obtain ⟨source, ref, id, tree, href, hid, hentries⟩ := exists_of_report hcode
  rw [ho.offer?_eq hempty.sound.tree] at hentries
  obtain ⟨hhas, hcwd₃⟩ := hempty.hasClone ho hclone href hid hentries
  rw [← hfits] at hentries
  obtain ⟨hhas', hcwd₃'⟩ := hempty'.hasClone ho' hclone' href hid hentries
  have hsame := hcwd₃'.trans (hcwd₂.trans hcwd₃.symm)
  rw [← hcwd₃] at hhead hremove
  have hhead' := hhas.head_elsewhere hhas' hkin hsame hroom hhead
  obtain ⟨e', hremove'⟩ := hhas.strip_elsewhere hhas' hkin hsame hremove
  rw [hcwd₃'] at hhead' hremove'
  exact ⟨_, _, htip, d', w₂', _, e', h'.dirs, hmake', hclone', hhead', hremove', rfl⟩

/-- A branch that is refused in one world is refused alike in another that offers the same. -/
theorem Refuses.elsewhere {finished : Finished}
    (hrefuses : w.Refuses site branch commit scratch finished) :
    ∃ scratch', w'.Refuses site branch commit scratch' finished := by
  obtain ⟨-, hfailed, d₀, w₂, w₃, hdirs, hmake, hrun⟩ := hrefuses
  obtain rfl : d₀ = d := (Prod.mk.inj (hdirs.symm.trans h.dirs)).1
  obtain ⟨w₂', scratch', hmake'⟩ := h.makes_elsewhere h' hcwd hmake
  obtain ⟨hpath, hempty, hstays⟩ := h.opens hmake
  obtain ⟨hpath', hempty', hstays'⟩ := h'.opens hmake'
  rw [hpath] at hrun
  rw [hpath'] at hmake'
  have hcwd₂ : w₂'.disk.cwd = w₂.disk.cwd := by
    rw [hstays.cwd, hstays'.cwd]
    exact h'.keeps.cwd.trans (hcwd.trans h.keeps.cwd.symm)
  have hclone := hempty.clone_eq (hoffer.stays hstays)
  have hclone' := hempty'.clone_eq (hoffer'.stays hstays')
  rw [(h.kin h').fits_eq site seat hcwd₂] at hclone'
  have hgit : ∀ {v : World} dest, v.faults = [] →
      v.runGit (.clone site.repository branch dest) = v.clone site.repository branch dest := by
    intro v dest hv
    rw [runGit, takeFault, hv]
    rfl
  rw [hgit _ hempty.sound.undisturbed, hclone] at hrun
  obtain ⟨-, rfl⟩ := Prod.mk.inj hrun
  exact ⟨_, htip, hfailed, d', w₂', _, h'.dirs, hmake',
    (hgit _ hempty'.sound.undisturbed).trans hclone'⟩

end

end World

end Depot
