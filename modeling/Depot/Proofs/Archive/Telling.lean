import Depot.Proofs.Archive.Essence
import Depot.Proofs.Archive.Rendering

/-!
A copy told from its tree alone: what each chore comes to, or what its trouble is, with no file system
and no path of one. As long as nothing that is followed leads out of the tree, a copy on a disk comes to
what is told of it, except that the disk may find one of its paths too long.
-/

namespace Depot

/-- Why something fails, as far as that is the same wherever it fails. -/
inductive Trouble where
  /-- A link leads to nothing. -/
  | broken
  /-- Something cannot be read. -/
  | blocked
  /-- The name of something is no text. -/
  | unfit
  deriving DecidableEq, Repr

/-- A failure that a trouble brings about. -/
inductive Trouble.Explains : Trouble → Failure → Prop
  | broken (link target : Bytes) : Explains .broken (.brokenLink link target)
  | blocked (context : String) (cause : Cause) : Explains .blocked (.io context cause)
  | unfit (path : Bytes) (reason : String) : Explains .unfit (.pathInvalid path reason)

/-- What comes of something on a disk is what was told of it, or a path is too long for the disk. -/
inductive Fulfils {α β : Type} (agree : α → β → Prop) : Except Failure α → Except Trouble β → Prop
  | ok {a : α} {b : β} (h : agree a b) : Fulfils agree (.ok a) (.ok b)
  | error {f : Failure} {t : Trouble} (h : t.Explains f) : Fulfils agree (.error f) (.error t)
  | tooLong (context : String) (told : Except Trouble β) :
    Fulfils agree (.error (.ofErrno context .nameTooLong)) told

namespace Fulfils

variable {α β γ δ : Type} {agree : α → β → Prop} {agree' : γ → δ → Prop} {r : Except Failure α}
  {told : Except Trouble β}

theorem bind {f : α → Except Failure γ} {g : β → Except Trouble δ} (h : Fulfils agree r told)
    (hnext : ∀ a b, agree a b → Fulfils agree' (f a) (g b)) : Fulfils agree' (r >>= f) (told >>= g) := by
  cases h with
  | ok h => exact hnext _ _ h
  | error h => exact .error h
  | tooLong context told => exact .tooLong context _

theorem map {f : α → γ} {g : β → δ} (h : Fulfils agree r told)
    (hnext : ∀ a b, agree a b → agree' (f a) (g b)) : Fulfils agree' (r.map f) (told.map g) := by
  cases h with
  | ok h => exact .ok (hnext _ _ h)
  | error h => exact .error h
  | tooLong context told => exact .tooLong context _

theorem of_error {agree' : γ → β → Prop} {f : Failure} (h : Fulfils agree (.error f) told) :
    Fulfils agree' (.error f) told := by
  cases h with
  | error h => exact .error h
  | tooLong context told => exact .tooLong context told

theorem mapM {f : γ → Except Failure α} {g : γ → Except Trouble α} {l : List γ}
    (h : ∀ x ∈ l, Fulfils Eq (f x) (g x)) : Fulfils Eq (l.mapM f) (l.mapM g) :=
  related_mapM (Fulfils Eq) (fun _ => .ok rfl) (fun hx hnext => hx.bind fun a _ ha => ha ▸ hnext a) h

end Fulfils

namespace Files

/-- The node that names lead to in a tree, through links. -/
def Node.locate (tree : Node) (names : Place) : Except Errno (Place × Node) :=
  walk tree true linkLimit [] (names.map .name) >>= Found.existing

theorem Node.locate_eq_ok_iff {tree : Node} {names here : Place} {x : Node} :
    tree.locate names = .ok (here, x) ↔
      walk tree true linkLimit [] (names.map .name) = .ok ⟨here, some x⟩ := by
  rw [locate]
  cases walk tree true linkLimit [] (names.map .name) with
  | error e => simp [bind, Except.bind]
  | ok found =>
    obtain ⟨place, node?⟩ := found
    cases node? <;> simp [bind, Except.bind, Found.existing]

theorem Node.locate_essence (tree : Node) (names : Place) :
    (tree.moded essentialMode).locate names = (tree.locate names).map fun found => (found.1, found.2.moded essentialMode) := by
  rw [locate, locate, walk_moded]
  cases walk tree true linkLimit [] (names.map .name) with
  | error e => rfl
  | ok found =>
    obtain ⟨here, node?⟩ := found
    cases node? <;> rfl

namespace Disk

/-- What is found of a path below the top of a tree is what its names lead to in the tree. -/
def Shows (top : Place) (r told : Except Errno (Place × Node)) : Prop :=
  r = .error .nameTooLong ∨ r = told.map fun found => (top ++ found.1, found.2)

variable {d : Disk} {tree : Node} {top names : Place}

theorem Bears.existing (hb : d.Bears top tree) (hnames : ∀ n ∈ names, IsName n)
    (hin : (⟨linkLimit, [], names.map .name⟩ : Way).IsInside tree) :
    d.go true (pathOf (top ++ names)) >>= Found.existing =
      (tree.locate names).map fun found => (top ++ found.1, found.2) := by
  rw [hb.go_under true hnames hin, Node.locate]
  cases walk tree true linkLimit [] (names.map .name) with
  | error e => rfl
  | ok found =>
    obtain ⟨here, node?⟩ := found
    cases node? <;> rfl

theorem Bears.locate (hb : d.Bears top tree) (hnames : ∀ n ∈ names, IsName n)
    (hin : (⟨linkLimit, [], names.map .name⟩ : Way).IsInside tree) :
    Shows top (d.locate (pathOf (top ++ names))) (tree.locate names) := by
  rw [Disk.locate, find]
  split_ifs
  · exact .inl rfl
  · exact .inr (hb.existing hnames hin)

theorem Bears.resolve (hb : d.Bears top tree) (hnames : ∀ n ∈ names, IsName n)
    (hin : (⟨linkLimit, [], names.map .name⟩ : Way).IsInside tree) :
    Shows top (d.resolve (pathOf (top ++ names))) (tree.locate names) := by
  have hexisting := hb.existing hnames hin
  rw [Shows, Disk.resolve, hexisting]
  cases tree.locate names with
  | error e => exact .inr rfl
  | ok found =>
    simp only [Except.map, bind, Except.bind]
    split_ifs
    · exact .inl rfl
    · exact .inr rfl

theorem shows_pathOf (hb : d.Bears top tree) (hs : d.root.IsSound) {here : Place} {x : Node}
    (hx : tree.get? here = some x) (hlink : ∀ target, x ≠ .link target) :
    Shows top (d.locate (pathOf (top ++ here))) (.ok (here, x)) := by
  have hget := (Way.get?_under hb.holds here).trans hx
  rcases find_pathOf hs hget hlink (hb.isDirAt.of_prefix List.nil_prefix) with hfind | hfind
  · exact .inl (by rw [Disk.locate, hfind]; rfl)
  · exact .inr (by rw [Disk.locate, hfind]; rfl)

theorem readLink_pathOf (hs : d.root.IsSound) {place : Place} {target : Bytes}
    (hx : d.root.get? place = some (.link target)) (hne : place ≠ []) :
    d.readLink (pathOf place) = .error .nameTooLong ∨ d.readLink (pathOf place) = .ok target := by
  have hnames := hs.names hx
  rcases List.eq_nil_or_concat place with hnil | ⟨ns, n, heq⟩
  · exact absurd hnil hne
  rw [List.concat_eq_append] at heq
  subst heq
  have hdir : d.root.IsDirAt ([] ++ ns) := .of_append (by simp) hx
  have hname := (d.leadsTo_root (hdir.of_prefix List.nil_prefix)).names (hnames n (by simp))
    (spells_pathOf (by simp) hnames) hdir
  rcases hname.find_eq false (by simp) with hfind | ⟨-, hfind⟩
  · exact .inl (by rw [readLink, lstat, hfind]; rfl)
  · rw [List.nil_append, hx] at hfind
    exact .inr (by rw [readLink, lstat, hfind]; rfl)

end Disk

end Files

namespace Archive

open Files

/-- What is told of a chore: what it makes, if anything, and the chores that it gives. -/
abbrev Telling := Except Trouble (Option Node × List Chore)

namespace Chore

/-- The trouble with a link or a directory that cannot be looked up. -/
def lost (e : Errno) : Trouble := if e = .notFound then .broken else .blocked

def tellFile (found : Except Errno (Place × Node)) : Telling :=
  match found with
  | .ok (_, .file mode data) =>
    if mode &&& Disk.ownerRead = 0 then .error .blocked else .ok (some (.copied mode data), [])
  | _ => .error .blocked

def tellDir (c : Chore) (trouble : Errno → Trouble) (found : Except Errno (Place × Node)) : Telling :=
  match found with
  | .ok (here, .dir _ es) => .ok (some (.dir 0o755 []), es.map fun e => c.child here e.1 e.2.kind)
  | .ok _ => .error .blocked
  | .error e => .error (trouble e)

def tellLink (c : Chore) (found : Except Errno (Place × Node)) : Telling :=
  match found with
  | .ok (_, .dir ..) => c.tellDir lost found
  | .ok _ => tellFile found
  | .error e => .error (lost e)

/-- What a chore comes to. -/
def tell (tree : Node) (src : Place) (c : Chore) : Telling :=
  match c with
  | entry place .directory => c.tellDir (fun _ => .blocked) (tree.locate (src ++ place))
  | entry place .file => tellFile (tree.locate (src ++ place))
  | entry place .link =>
    match tree.get? (src ++ place) with
    | some (.link target) =>
      if SafeLink.isSafe place target then .ok (some (.link target), [])
      else c.tellLink (tree.locate (src ++ place))
    | _ => .error .blocked
  | entry _ .special => .ok (none, [])
  | inner v n .directory => c.tellDir lost (tree.locate (v.names ++ [n]))
  | inner v n .link =>
    match tree.locate (v.names ++ [n]) with
    | .ok (here, .dir mode es) =>
      if v.way.contains here then .error .blocked else c.tellDir lost (.ok (here, .dir mode es))
    | found => c.tellLink found
  | inner v n _ => tellFile (tree.locate (v.names ++ [n]))

/-! ### What a task finds is what is told of its chore -/

variable {d : Disk} {tree : Node} {src top : Place} {c : Chore} {path : Bytes}
  {found : Except Errno (Place × Node)}

/-- What a task finds on a disk that has the tree at `top` is what is told. -/
def IsTold (top : Place) (r : Finding) (told : Telling) : Prop :=
  Fulfils (fun found told => found = (told.1, told.2.map (task top))) r.whole told

/-- The tasks of a directory, as the tree shows them. -/
def listing (top : Place) (c : Chore) (found : Except Errno (Place × Node)) :
    Except Errno (List Task) :=
  match found with
  | .ok (here, .dir _ es) => .ok (es.map fun e => (c.child here e.1 e.2.kind).task top)
  | .ok _ => .error .notDirectory
  | .error e => .error e

theorem explains_lost (path : Bytes) (e : Errno) :
    (lost e).Explains ((⟨d, {}⟩ : Copying).lost path e) := by
  rw [lost, Copying.lost]
  split_ifs
  · exact .broken _ _
  · exact .blocked _ _

theorem isTold_readFile (h : Disk.Shows top (d.locate path) found) :
    IsTold top (Copying.readFile d path) (tellFile found) := by
  rw [Copying.readFile, Disk.fileAt]
  rcases h with hloc | hloc
  · rw [hloc]
    exact .tooLong _ _
  rw [hloc]
  cases found with
  | error e => exact .error (.blocked _ _)
  | ok found =>
    obtain ⟨here, node⟩ := found
    cases node with
    | file mode data =>
      simp only [Except.map, bind, Except.bind, tellFile, Disk.contents]
      split_ifs
      · exact .error (.blocked _ _)
      · exact .ok rfl
    | special kind => cases kind <;> exact .error (.blocked _ _)
    | _ => exact .error (.blocked _ _)

theorem list_eq_listing {task' : Name → Kind → Task} (h : Disk.Shows top (d.locate path) found)
    (htask : ∀ here node, found = .ok (here, node) →
      ∀ n kind, task' n kind = (c.child here n kind).task top) :
    (⟨d, {}⟩ : Copying).list path task' = .error .nameTooLong ∨
      (⟨d, {}⟩ : Copying).list path task' = c.listing top found := by
  rw [Copying.list, Disk.entries, Disk.stat]
  rcases h with hloc | hloc
  · rw [hloc]
    exact .inl rfl
  rw [hloc]
  refine .inr ?_
  cases found with
  | error e => rfl
  | ok found =>
    obtain ⟨here, node⟩ := found
    cases node with
    | dir mode es =>
      refine congrArg Except.ok ((List.map_map ..).trans ?_)
      exact List.map_congr_left fun e _ => htask here _ rfl e.1 e.2.kind
    | _ => rfl

theorem listBelow_eq_listing {v : Visit} {n : Name}
    (h : Disk.Shows top (d.locate (Path.join v.path n)) found)
    (htask : ∀ here node, found = .ok (here, node) → ∀ m kind,
      .inner ⟨(top ++ here) :: v.way, Path.join v.path n, v.place ++ [n]⟩ m kind =
        (c.child here m kind).task top) :
    (⟨d, {}⟩ : Copying).listBelow v n = .error .nameTooLong ∨
      (⟨d, {}⟩ : Copying).listBelow v n = c.listing top found := by
  rw [Copying.listBelow]
  rcases h with hloc | hloc
  · rw [hloc]
    exact .inl rfl
  cases found with
  | error e =>
    rw [hloc]
    exact .inr rfl
  | ok found =>
    obtain ⟨here, node⟩ := found
    rw [hloc]
    refine list_eq_listing (.inr hloc) fun here' node' heq => ?_
    obtain ⟨rfl, rfl⟩ := Prod.mk.inj (Except.ok.inj heq)
    exact htask here node rfl

theorem isTold_readDir {failure : Errno → Failure} {trouble : Errno → Trouble}
    {listed : Except Errno (List Task)}
    (h : listed = .error .nameTooLong ∨ listed = c.listing top found)
    (hlong : ∃ context, failure .nameTooLong = .ofErrno context .nameTooLong)
    (hblocked : ∃ context cause, failure .notDirectory = .io context cause)
    (hfailure : ∀ e, (trouble e).Explains (failure e)) :
    IsTold top (Copying.readDir listed failure) (c.tellDir trouble found) := by
  have herror : ∀ e, (Copying.readDir (.error e) failure).whole = .error (failure e) := fun _ => rfl
  rw [IsTold]
  rcases h with rfl | rfl
  · obtain ⟨context, hcontext⟩ := hlong
    rw [herror, hcontext]
    exact .tooLong _ _
  cases found with
  | error e => exact .error (hfailure e)
  | ok found =>
    obtain ⟨here, node⟩ := found
    cases node with
    | dir mode es =>
      refine .ok (congrArg (Prod.mk _) ?_)
      dsimp only
      rw [List.map_map]
      rfl
    | _ =>
      obtain ⟨context, cause, hcause⟩ := hblocked
      have hwhole := (herror .notDirectory).trans (congrArg Except.error hcause)
      exact hwhole ▸ .error (.blocked _ _)

theorem isTold_openVisit (hb : d.Bears top tree) (hs : d.root.IsSound) {here place : Place}
    {mode : Nat} {es : Entries} (hx : tree.get? here = some (.dir mode es)) :
    IsTold top
      (Copying.readDir
        ((⟨d, {}⟩ : Copying).list (Disk.pathOf (top ++ here))
          (.inner ⟨[top ++ here], Disk.pathOf (top ++ here), place⟩))
        ((⟨d, {}⟩ : Copying).lost (Disk.pathOf (top ++ here))))
      ((entry place .link).tellDir lost (.ok (here, .dir mode es))) := by
  refine isTold_readDir (list_eq_listing (Disk.shows_pathOf hb hs hx (by simp)) ?_) ⟨_, rfl⟩
    ⟨_, _, rfl⟩ (explains_lost _)
  rintro here' node' heq n kind
  obtain ⟨rfl, rfl⟩ := Prod.mk.inj (Except.ok.inj heq)
  rfl

theorem isTold_referent (hb : d.Bears top tree) (hs : d.root.IsSound) {names place : Place}
    {shown target : Bytes} (hnames : ∀ n ∈ names, IsName n)
    (hin : (⟨linkLimit, [], names.map .name⟩ : Way).IsInside tree) :
    IsTold top
      (match (⟨d, {}⟩ : Copying).referent (Disk.pathOf (top ++ names)) shown target with
        | .error f => .error f
        | .ok (here, node) =>
          let path := Disk.pathOf here
          if node.isDir then
            Copying.readDir ((⟨d, {}⟩ : Copying).list path (.inner ⟨[here], path, place⟩))
              ((⟨d, {}⟩ : Copying).lost path)
          else Copying.readFile d path)
      ((entry place .link).tellLink (tree.locate names)) := by
  rw [Copying.referent]
  rcases hb.resolve hnames hin with hres | hres
  · rw [hres]
    exact .tooLong _ _
  cases hfound : tree.locate names with
  | error e =>
    rw [hres, hfound]
    simp only [Except.map, Except.mapError, tellLink, lost]
    split_ifs
    · exact .error (.broken _ _)
    · exact .error (.blocked _ _)
  | ok found =>
    obtain ⟨here, node⟩ := found
    rw [hfound] at hres
    obtain ⟨hget, hlink⟩ := Disk.of_resolve_ok hres
    have hx : tree.get? here = some node := by rwa [Way.get?_under hb.holds] at hget
    have hshows := Disk.shows_pathOf hb hs hx hlink
    rw [hres]
    cases node with
    | dir mode es => exact isTold_openVisit hb hs hx
    | _ => exact isTold_readFile hshows

/-- Whatever was located can be resolved, unless the path of its place is too long. -/
theorem isTold_followed {shown target : Bytes} {here : Place} {node : Node} {r : Finding}
    {told : Telling} (hres : Disk.Shows top (d.resolve path) (.ok (here, node)))
    (h : IsTold top r told) :
    IsTold top
      (match (⟨d, {}⟩ : Copying).referent path shown target with
        | .error f => .error f
        | .ok _ => r) told := by
  rw [Copying.referent]
  rcases hres with hres | hres
  · rw [hres]
    exact .tooLong _ _
  · rw [hres]
    exact h

theorem Stands.isInside_entry {place : Place} {kind : Kind} (h : (entry place kind).Stands tree src)
    (hkind : kind ≠ .link) : ((entry place kind).way src).IsInside tree := by
  refine h.isInside (fun hf => ?_) (fun _ heq => absurd (entry.inj heq).2 hkind)
  cases kind with
  | link => exact absurd rfl hkind
  | _ => exact hf.elim

theorem isTold_inner {v : Trip} {n : Name} {kind : Kind}
    (h : (inner v n kind).Stands tree src) (hs : tree.IsSound) (hb : d.Bears top tree)
    (hin : ((inner v n kind).way src).IsInside tree) :
    IsTold top (((inner v n kind).task top).read d (Disk.pathOf (top ++ src)))
      ((inner v n kind).tell tree src) := by
  have hnames := h.names hs
  have hpath := h.path_eq hs hb
  change Path.join _ _ = Disk.pathOf (top ++ (v.names ++ [n])) at hpath
  have hlocate : Disk.Shows top (d.locate (Disk.pathOf (top ++ (v.names ++ [n]))))
      (tree.locate (v.names ++ [n])) := hb.locate hnames hin
  have hfile := isTold_readFile hlocate
  have hdir : IsTold top
      (Copying.readDir
        ((⟨d, {}⟩ : Copying).listBelow
          ⟨v.way.map (top ++ ·), Disk.pathOf (top ++ v.names), v.place⟩ n)
        ((⟨d, {}⟩ : Copying).lost (Disk.pathOf (top ++ (v.names ++ [n])))))
      ((inner v n kind).tellDir lost (tree.locate (v.names ++ [n]))) := by
    refine isTold_readDir (listBelow_eq_listing (hpath ▸ hlocate) ?_) ⟨_, rfl⟩ ⟨_, _, rfl⟩
      (explains_lost _)
    intro here node _ m kind'
    rw [hpath]
    rfl
  cases kind with
  | directory =>
    rw [task, Task.read, hpath]
    exact hdir
  | link =>
    rw [task, Task.read, hpath, tell]
    rcases hlocate with hloc | hloc
    · simp only [hloc]
      exact .tooLong _ _
    cases hfound : tree.locate (v.names ++ [n]) with
    | error e =>
      simp only [hloc, hfound, Except.map]
      exact .error (explains_lost _ e)
    | ok found =>
      obtain ⟨here, node⟩ := found
      have hway : (v.way.map (top ++ ·)).contains (top ++ here) = v.way.contains here := by
        simp [List.contains_eq_mem, List.mem_map]
      have hresolve : Disk.Shows top (d.resolve (Disk.pathOf (top ++ (v.names ++ [n]))))
          (.ok (here, node)) := by
        have hres := hb.resolve hnames hin
        rwa [names, hfound] at hres
      rw [hfound] at hfile hdir
      simp only [hloc, hfound, Except.map, hway]
      cases node with
      | dir mode es =>
        simp only [Node.isDir, true_and]
        split_ifs
        · exact .error (.blocked _ _)
        · exact isTold_followed hresolve hdir
      | _ => exact isTold_followed hresolve hfile
  | file | special =>
    rw [← hpath] at hfile
    exact hfile

theorem Stands.isTold_read (h : c.Stands tree src) (hs : tree.IsSound) (hsound : d.root.IsSound)
    (hb : d.Bears top tree) (hin : c.Follows tree src → (c.way src).IsInside tree) :
    IsTold top ((c.task top).read d (Disk.pathOf (top ++ src))) (c.tell tree src) := by
  have hnames := h.names hs
  have hpath := h.path_eq hs hb
  cases c with
  | inner v n kind => exact isTold_inner h hs hb (hin trivial)
  | entry place kind =>
    change Path.below _ _ = Disk.pathOf (top ++ (src ++ place)) at hpath
    cases kind with
    | directory =>
      rw [task, Task.read, hpath]
      exact isTold_readDir
        (list_eq_listing (hb.locate hnames (h.isInside_entry (by simp))) fun _ _ _ _ _ => rfl)
        ⟨_, rfl⟩ ⟨_, _, rfl⟩ fun _ => .blocked _ _
    | file =>
      rw [task, Task.read, hpath]
      exact isTold_readFile (hb.locate hnames (h.isInside_entry (by simp)))
    | special => exact .ok rfl
    | link =>
      obtain ⟨x, hx, hkind⟩ := Option.map_eq_some_iff.mp h.2
      cases x with
      | link target =>
        have hget := (Way.get?_under hb.holds (src ++ place)).trans hx
        rw [task, Task.read, tell]
        simp only [hpath, hx]
        rcases Disk.readLink_pathOf hsound hget (by simp [h.1]) with hread | hread
        · simp only [hread]
          exact .tooLong _ _
        simp only [hread]
        by_cases hsafe : SafeLink.isSafe place target = true
        · rw [if_pos hsafe, if_pos hsafe]
          exact .ok rfl
        · rw [if_neg hsafe, if_neg hsafe]
          exact isTold_referent hb hsound hnames (hin ⟨target, hx, by simpa using hsafe⟩)
      | _ => cases hkind

/-! ### What is told of a chore is what it makes -/

variable {node? : Option Node} {cs : List Chore}

theorem tellFile_eq_ok (h : tellFile found = .ok (node?, cs)) :
    ∃ here mode data, found = .ok (here, .file mode data) ∧
      Disk.contents (.file mode data) = .ok data ∧ node? = some (.copied mode data) ∧ cs = [] := by
  cases found with
  | error e => cases h
  | ok found =>
    obtain ⟨here, node⟩ := found
    cases node with
    | file mode data =>
      rw [tellFile] at h
      split_ifs at h with hmode
      obtain ⟨rfl, rfl⟩ := Prod.mk.inj (Except.ok.inj h)
      exact ⟨here, mode, data, rfl, by rw [Disk.contents, if_neg hmode], rfl, rfl⟩
    | _ => cases h

theorem tellDir_eq_ok {trouble : Errno → Trouble} (h : c.tellDir trouble found = .ok (node?, cs)) :
    ∃ here mode es, found = .ok (here, .dir mode es) ∧ node? = some (.dir 0o755 []) ∧
      cs = es.map fun e => c.child here e.1 e.2.kind := by
  cases found with
  | error e => cases h
  | ok found =>
    obtain ⟨here, node⟩ := found
    cases node with
    | dir mode es =>
      obtain ⟨rfl, rfl⟩ := Prod.mk.inj (Except.ok.inj h)
      exact ⟨here, mode, es, rfl, rfl, rfl⟩
    | _ => cases h

theorem makes_of_tellFile {names : Place}
    (hfinds : ∀ here mode data, tree.locate names = .ok (here, .file mode data) →
      c.Finds tree src here (.file mode data))
    (h : tellFile (tree.locate names) = .ok (node?, cs)) : c.Makes tree src node? cs := by
  obtain ⟨here, mode, data, hfound, hdata, rfl, rfl⟩ := tellFile_eq_ok h
  exact .filled (hfinds _ _ _ hfound) hdata

theorem makes_of_tellDir {names : Place} {trouble : Errno → Trouble}
    (hfinds : ∀ here mode es, tree.locate names = .ok (here, .dir mode es) →
      c.Finds tree src here (.dir mode es))
    (h : c.tellDir trouble (tree.locate names) = .ok (node?, cs)) : c.Makes tree src node? cs := by
  obtain ⟨here, mode, es, hfound, rfl, rfl⟩ := tellDir_eq_ok h
  exact .opened (hfinds _ _ _ hfound)

theorem makes_of_tellLink {names : Place}
    (hfinds : ∀ here node, tree.locate names = .ok (here, node) → c.Finds tree src here node)
    (h : c.tellLink (tree.locate names) = .ok (node?, cs)) : c.Makes tree src node? cs := by
  cases hfound : tree.locate names with
  | error e =>
    rw [hfound] at h
    cases h
  | ok found =>
    obtain ⟨here, node⟩ := found
    rw [hfound] at h
    cases node with
    | dir mode es =>
      have hdir : c.tellDir lost (tree.locate names) = .ok (node?, cs) := by rwa [hfound]
      exact makes_of_tellDir (fun _ _ _ => hfinds _ _) hdir
    | file mode data =>
      have hfile : tellFile (tree.locate names) = .ok (node?, cs) := by rwa [hfound]
      exact makes_of_tellFile (fun _ _ _ => hfinds _ _) hfile
    | _ => cases h

theorem makes_of_tell (h : c.tell tree src = .ok (node?, cs)) : c.Makes tree src node? cs := by
  cases c with
  | entry place kind =>
    have hplain : kind ≠ .link → kind ≠ .special → ∀ here node,
        tree.locate (src ++ place) = .ok (here, node) → (entry place kind).Finds tree src here node :=
      fun hlink hspecial _ _ hfound => .plain hlink hspecial (Node.locate_eq_ok_iff.mp hfound)
    cases kind with
    | directory =>
      exact makes_of_tellDir (fun _ _ _ => hplain (by simp) (by simp) _ _) h
    | file => exact makes_of_tellFile (fun _ _ _ => hplain (by simp) (by simp) _ _) h
    | special =>
      obtain ⟨rfl, rfl⟩ := Prod.mk.inj (Except.ok.inj h)
      exact .skipped
    | link =>
      rw [tell] at h
      split at h
      · next target hx =>
        by_cases hsafe : SafeLink.isSafe place target = true
        · rw [if_pos hsafe] at h
          obtain ⟨rfl, rfl⟩ := Prod.mk.inj (Except.ok.inj h)
          exact .kept hx hsafe
        · rw [if_neg hsafe] at h
          exact makes_of_tellLink (fun _ _ hfound =>
            .replaced ⟨target, hx, by simpa using hsafe⟩ (Node.locate_eq_ok_iff.mp hfound)) h
      · cases h
  | inner v n kind =>
    have hinner : ∀ here node, (kind = .link → node.isDir = true → here ∉ v.way) →
        tree.locate (v.names ++ [n]) = .ok (here, node) → (inner v n kind).Finds tree src here node :=
      fun _ _ hway hfound => .inner hway (Node.locate_eq_ok_iff.mp hfound)
    cases kind with
    | directory => exact makes_of_tellDir (fun _ _ _ => hinner _ _ (by simp)) h
    | file | special => exact makes_of_tellFile (fun _ _ _ => hinner _ _ (by simp)) h
    | link =>
      rw [tell] at h
      split at h
      · next here mode es hfound =>
        split_ifs at h with hway
        rw [← hfound] at h
        refine makes_of_tellDir (fun here' mode' es' hfound' => hinner _ _ (fun _ _ => ?_) hfound') h
        obtain ⟨rfl, -⟩ := Prod.mk.inj (Except.ok.inj (hfound.symm.trans hfound'))
        simpa using hway
      · next hnot =>
        refine makes_of_tellLink (fun here node hfound => hinner _ _ (fun _ hdir => ?_) hfound) h
        cases node with
        | dir mode es => exact absurd hfound (hnot here mode es)
        | _ => cases hdir

theorem Stands.of_makes (h : c.Stands tree src) (hs : tree.IsSound)
    (hmakes : c.Makes tree src node? cs) : ∀ m ∈ cs, m.Stands tree src := by
  cases hmakes with
  | opened hfinds =>
    intro m hm
    obtain ⟨e, he, rfl⟩ := List.mem_map.mp hm
    exact h.child hs hfinds he
  | _ => simp

/-! ### The essence of a tree tells as much -/

/-- What is told of the essence of a tree. -/
def toldEssence (told : Option Node × List Chore) : Option Node × List Chore :=
  (told.1.map (Node.moded essentialMode), told.2)

theorem tellFile_essence (found : Except Errno (Place × Node)) :
    tellFile (found.map fun found => (found.1, found.2.moded essentialMode)) =
      (tellFile found).map toldEssence := by
  cases found with
  | error e => rfl
  | ok found =>
    obtain ⟨here, node⟩ := found
    cases node with
    | file mode data =>
      simp only [Except.map, Node.moded, tellFile, essentialMode_and_ownerRead]
      split_ifs
      · rfl
      · rw [copied_essence]
        rfl
    | _ => simp [Except.map, Node.moded, tellFile]

theorem tellDir_essence (c : Chore) (trouble : Errno → Trouble)
    (found : Except Errno (Place × Node)) :
    c.tellDir trouble (found.map fun found => (found.1, found.2.moded essentialMode)) =
      (c.tellDir trouble found).map toldEssence := by
  cases found with
  | error e => rfl
  | ok found =>
    obtain ⟨here, node⟩ := found
    cases node with
    | dir mode es =>
      simp [Except.map, Node.moded, tellDir, toldEssence, Node.modedAll_eq, Function.comp_def,
        Node.kind_moded, Node.modedAll]
    | _ => simp [Except.map, Node.moded, tellDir]

theorem tellLink_essence (c : Chore) (found : Except Errno (Place × Node)) :
    c.tellLink (found.map fun found => (found.1, found.2.moded essentialMode)) =
      (c.tellLink found).map toldEssence := by
  have hdir := c.tellDir_essence lost found
  have hfile := tellFile_essence found
  cases found with
  | error e => rfl
  | ok found =>
    obtain ⟨here, node⟩ := found
    cases node with
    | dir mode es => simpa [Except.map, Node.moded, tellLink] using hdir
    | _ => simpa [Except.map, Node.moded, tellLink] using hfile

/-- The essence of a tree tells of a chore what the tree tells. -/
theorem tell_essence (c : Chore) : c.tell (tree.moded essentialMode) src = (c.tell tree src).map toldEssence := by
  cases c with
  | entry place kind =>
    cases kind with
    | directory => rw [tell, tell, Node.locate_essence, tellDir_essence]
    | file => rw [tell, tell, Node.locate_essence, tellFile_essence]
    | special => rfl
    | link =>
      have hlink := (entry place .link).tellLink_essence (tree.locate (src ++ place))
      rw [tell, tell, Node.locate_essence, Node.get?_moded]
      cases hx : tree.get? (src ++ place) with
      | none => rfl
      | some x =>
        cases x with
        | link target =>
          simp only [Option.map_some, Node.moded]
          split_ifs
          · simp [Except.map, toldEssence, Node.moded]
          · exact hlink
        | _ => simp [Node.moded, Except.map]
  | inner v n kind =>
    have hlink := (inner v n kind).tellLink_essence (tree.locate (v.names ++ [n]))
    have hdir := (inner v n kind).tellDir_essence lost (tree.locate (v.names ++ [n]))
    cases kind with
    | directory => rw [tell, tell, Node.locate_essence, tellDir_essence]
    | file | special =>
      exact (congrArg tellFile (tree.locate_essence _)).trans (tellFile_essence _)
    | link =>
      rw [tell, tell, Node.locate_essence]
      cases hfound : tree.locate (v.names ++ [n]) with
      | error e => rfl
      | ok found =>
        obtain ⟨here, node⟩ := found
        rw [hfound] at hlink hdir
        cases node with
        | dir mode es =>
          simp only [Except.map, Node.moded] at hdir ⊢
          split_ifs
          · rfl
          · exact hdir
        | _ => simpa [Except.map, Node.moded] using hlink

end Chore

end Archive

end Depot
