import Depot.Proofs.Archive.Drawing
import Depot.Proofs.Checkout.Renaming

/-!
Two copies of one tree side by side, each on a disk of its own. The paths of the tree on the two disks
are the same but for the numbers of scratch directories. So the copies find the same, make the same, and
fail together, with failures that are alike.
-/

namespace Depot

open Files

namespace Files.Disk

/-- Two disks find the same in a tree that both have, each at its own place. -/
inductive Shared (top top' : Place) :
    Except Errno (Place × Node) → Except Errno (Place × Node) → Prop
  | found (here : Place) (x : Node) : Shared top top' (.ok (top ++ here, x)) (.ok (top' ++ here, x))
  | error (e : Errno) : Shared top top' (.error e) (.error e)

/-- Two disks have a tree at paths that differ in the number of a scratch directory. -/
structure Beside (d d' : Disk) (top top' : Place) (tree : Node) : Prop where
  left : d.Bears top tree
  right : d'.Bears top' tree
  paths : ∀ names, Renamed (pathOf (top ++ names)) (pathOf (top' ++ names))

section

variable {d d' : Disk} {top top' names : Place} {tree : Node} {path path' : Bytes}

theorem shared_of_found (top top' : Place) (found : Except Errno Found) :
    Shared top top' (found.map (Found.under top) >>= Found.existing)
      (found.map (Found.under top') >>= Found.existing) := by
  cases found with
  | error e => exact .error e
  | ok found =>
    obtain ⟨here, node?⟩ := found
    cases node? with
    | none => exact .error .notFound
    | some x => exact .found here x

theorem Bears.find_eq (h : d.Bears top tree) (follow : Bool) (hnames : ∀ n ∈ names, IsName n)
    (hin : (⟨linkLimit, [], names.map .name⟩ : Way).IsInside tree) :
    d.find follow (pathOf (top ++ names)) =
      if (pathOf (top ++ names)).length > pathLimit then .error .nameTooLong
      else (walk tree follow linkLimit [] (names.map .name)).map (Found.under top) := by
  have hall : ∀ n ∈ top ++ names, IsName n := List.forall_mem_append.mpr ⟨h.names, hnames⟩
  have hnul := (spells_pathOf (by simp [h.ne_nil]) hall).nul
  rw [find, h.go_under follow hnames hin]
  simp only [hnul, not_false_eq_true, and_true]

namespace Beside

variable (h : Beside d d' top top' tree) (hnames : ∀ n ∈ names, IsName n)
  (hin : (⟨linkLimit, [], names.map .name⟩ : Way).IsInside tree)
include h hnames hin

/-- Either both paths are too long, or what is found in the tree is found on both disks. -/
theorem find (follow : Bool) : ∃ told : Except Errno Found,
    d.find follow (pathOf (top ++ names)) = told.map (Found.under top) ∧
      d'.find follow (pathOf (top' ++ names)) = told.map (Found.under top') := by
  rw [h.left.find_eq follow hnames hin, h.right.find_eq follow hnames hin,
    ← (h.paths names).length_eq]
  split_ifs
  · exact ⟨.error .nameTooLong, rfl, rfl⟩
  · exact ⟨_, rfl, rfl⟩

theorem locate : Shared top top' (d.locate (pathOf (top ++ names)))
    (d'.locate (pathOf (top' ++ names))) := by
  obtain ⟨told, hleft, hright⟩ := h.find hnames hin true
  rw [Disk.locate, Disk.locate, hleft, hright]
  exact shared_of_found ..

theorem resolve : Shared top top' (d.resolve (pathOf (top ++ names)))
    (d'.resolve (pathOf (top' ++ names))) := by
  have hshared := shared_of_found top top' (walk tree true linkLimit [] (names.map .name))
  rw [← h.left.go_under true hnames hin, ← h.right.go_under true hnames hin] at hshared
  rw [Disk.resolve, Disk.resolve]
  generalize d.go true (pathOf (top ++ names)) >>= Found.existing = r at hshared
  generalize d'.go true (pathOf (top' ++ names)) >>= Found.existing = r' at hshared
  cases hshared with
  | error e => exact .error e
  | found here x =>
    simp only [bind, Except.bind, (h.paths here).length_eq]
    split_ifs
    · exact .error .nameTooLong
    · exact .found here x

theorem readLink_eq : d.readLink (pathOf (top ++ names)) = d'.readLink (pathOf (top' ++ names)) := by
  obtain ⟨told, hleft, hright⟩ := h.find hnames hin false
  rw [readLink, readLink, lstat, lstat, hleft, hright]
  cases told with
  | error e => rfl
  | ok found =>
    obtain ⟨here, node?⟩ := found
    cases node? <;> rfl

end Beside

/-- A link is read the same way, though the way to it does not stay in the tree. -/
theorem Beside.readLink_of_get? (h : Beside d d' top top' tree) (hs : tree.IsSound) {target : Bytes}
    (hx : tree.get? names = some (.link target)) :
    d.readLink (pathOf (top ++ names)) = d'.readLink (pathOf (top' ++ names)) := by
  have hnames := hs.names hx
  have hne : names ≠ [] := by
    rintro rfl
    have hdir := h.left.dir
    rw [Option.some.inj (tree.get?_nil.symm.trans hx)] at hdir
    cases hdir
  obtain ⟨ns, n, rfl⟩ : ∃ ns n, names = ns ++ [n] :=
    (List.eq_nil_or_concat names).resolve_left hne |>.imp fun ns hn => hn.imp fun n hn => by
      rw [hn, List.concat_eq_append]
  have hread : ∀ {e : Disk} {place : Place}, e.Bears place tree →
      e.readLink (pathOf (place ++ (ns ++ [n]))) =
        if IsShort (pathOf (place ++ (ns ++ [n]))) (ns ++ [n]) then .ok target
        else .error .nameTooLong := by
    intro e place hb
    have hopens := leadsTo_pathOf hb.short hb.names hb.isDirAt
    have hspells := spells_below hopens.ne_nil hopens.nul hne hnames
    rw [below_pathOf hb.names hne hnames] at hspells
    have hdir : e.root.IsDirAt (place ++ ns) :=
      (Way.isDirAt_under hb.holds ns).mpr (.of_append (by simp) hx)
    have hget : e.root.get? (place ++ ns ++ [n]) = some (.link target) := by
      rw [List.append_assoc, Way.get?_under hb.holds, hx]
    have hfind := hopens.arrives.find_entry hspells hdir false nofun
    rw [readLink, lstat, hfind, hget]
    split_ifs <;> rfl
  rw [hread h.left, hread h.right]
  refine if_congr ⟨fun hshort => ⟨?_, hshort.names⟩, fun hshort => ⟨?_, hshort.names⟩⟩ rfl rfl
  · exact (h.paths _).length_eq ▸ hshort.path
  · exact (h.paths _).length_eq ▸ hshort.path

/-- What is there is found at its path, or the path is too long on both disks. -/
theorem Beside.locate_of_get? (h : Beside d d' top top' tree) (hs : tree.IsSound) {x : Node}
    (hx : tree.get? names = some x) (hlink : ∀ target, x ≠ .link target) :
    Shared top top' (d.locate (pathOf (top ++ names))) (d'.locate (pathOf (top' ++ names))) := by
  have htop : tree.get? ([] ++ names) = some x := hx
  exact h.locate (hs.names hx) (Way.isInside_names htop hlink)

theorem Shared.entries_eq (h : Shared top top' (d.locate path) (d'.locate path')) :
    d.entries path = d'.entries path' := by
  rw [entries, entries, stat, stat]
  generalize d.locate path = r at h
  generalize d'.locate path' = r' at h
  cases h <;> rfl

theorem Shared.fileAt_eq (h : Shared top top' (d.locate path) (d'.locate path')) :
    d.fileAt path = d'.fileAt path' := by
  rw [fileAt, fileAt]
  generalize d.locate path = r at h
  generalize d'.locate path' = r' at h
  cases h <;> rfl

/-- Two operations succeed together, or fail for one reason. -/
inductive Agree {α β : Type} : Except Errno α → Except Errno β → Prop
  | ok (a : α) (b : β) : Agree (.ok a) (.ok b)
  | error (e : Errno) : Agree (.error e) (.error e)

/-- What only the length of a path can refuse is refused on both disks or on none. -/
theorem agree_of_isShort (hlen : path.length = path'.length) :
    Agree (if IsShort path names then .ok d else .error .nameTooLong)
      (if IsShort path' names then .ok d' else .error .nameTooLong) := by
  have hiff : IsShort path names ↔ IsShort path' names :=
    ⟨fun h => ⟨hlen ▸ h.path, h.names⟩, fun h => ⟨hlen ▸ h.path, h.names⟩⟩
  rw [if_congr hiff rfl rfl]
  split_ifs
  · exact .ok _ _
  · exact .error _

end

end Files.Disk

namespace Archive

/-- Two tasks end together. -/
abbrev Together {α β : Type} (r : Except Failure α) (r' : Except Failure β) : Prop :=
  Concur (fun _ _ => True) r r'

namespace Copying

section

variable {k k' : Copying} {root root' place : Place} {dest dest' path path' : Bytes}
  {task task' : Task}

theorem together_change {action : String} {r r' : Except Errno Disk} {next next' : Copying → Taken}
    (hpath : Renamed path path') (hr : Disk.Agree r r')
    (hnext : ∀ k k', Together (next k).2 (next' k').2) :
    Together (k.change action path r next).2 (k'.change action path' r' next').2 := by
  cases hr with
  | ok d d' => exact hnext _ _
  | error e => exact .error (.ofErrno (action ++ " ") e hpath)

section

variable (hl : k.disk.LeadsTo dest root) (hl' : k'.disk.LeadsTo dest' root')
  (hr : Ready k.disk.root root task) (hr' : Ready k'.disk.root root' task')
  (htarget : task.target = place) (htarget' : task'.target = place) (hdest : Renamed dest dest')
include hl hl' hr hr' htarget htarget' hdest

theorem together_copyFile (hpath : Renamed path path')
    (hfile : k.disk.fileAt path = k'.disk.fileAt path') :
    Together (k.copyFile path (Path.below dest place)).2
      (k'.copyFile path' (Path.below dest' place)).2 := by
  obtain ⟨ns, n, hns, ha, hspells, hdir, hfree⟩ := @writes_of_ready _ ⟨[], dest⟩ _ _ hl hr
  obtain ⟨ns', n', hns', ha', hspells', hdir', hfree'⟩ :=
    @writes_of_ready _ ⟨[], dest'⟩ _ _ hl' hr'
  rw [copyFile, copyFile]
  refine together_change hpath ?_ fun _ _ => .ok trivial
  rw [htarget] at hns hspells
  rw [htarget'] at hns' hspells'
  rw [ha.copy_free hspells hdir hfree, ha'.copy_free hspells' hdir' hfree', hfile,
    ← hns, ← hns']
  cases k'.disk.fileAt path' with
  | error e => exact .error e
  | ok file => exact Disk.agree_of_isShort (hdest.below _).length_eq

omit hdest in
/-- A directory in the place of a link, or below one, is made in both copies or in none. -/
theorem agree_makeDirs {full full' : Bytes} (hne : full ≠ []) (hne' : full' ≠ [])
    (hsame : Renamed full full') (hfull : normal full = normal (Path.below dest place))
    (hfull' : normal full' = normal (Path.below dest' place)) :
    Disk.Agree (k.disk.makeDirs full) (k'.disk.makeDirs full') := by
  subst htarget
  rw [← htarget'] at hfull'
  rw [@makeDirs_of_ready _ ⟨[], dest⟩ _ _ hl hr _ hne hfull,
    @makeDirs_of_ready _ ⟨[], dest'⟩ _ _ hl' hr' _ hne' hfull', htarget']
  exact Disk.agree_of_isShort hsame.length_eq

end

theorem agree_list {task task' : Name → Kind → Task} {top top' : Place}
    (h : Disk.Shared top top' (k.disk.locate path) (k'.disk.locate path')) :
    Disk.Agree (k.list path task) (k'.list path' task') := by
  rw [list, list, h.entries_eq]
  cases k'.disk.entries path' with
  | error e => exact .error e
  | ok es => exact .ok _ _

theorem agree_listBelow {v v' : Visit} {n : Name} {top top' : Place}
    (h : Disk.Shared top top' (k.disk.locate (Path.join v.path n)) (k'.disk.locate (Path.join v'.path n))) :
    Disk.Agree (k.listBelow v n) (k'.listBelow v' n) := by
  have hlist := fun task task' => @agree_list k k' _ _ task task' _ _ h
  rw [listBelow, listBelow]
  generalize k.disk.locate (Path.join v.path n) = r at h ⊢
  generalize k'.disk.locate (Path.join v'.path n) = r' at h ⊢
  cases h with
  | error e => exact .error e
  | found here x => exact hlist _ _

theorem together_makeListed {failure failure' : Errno → Failure}
    {listed listed' : Except Errno (List Task)} {full full' : Bytes} {r r' : Except Errno Disk}
    (hlisted : Disk.Agree listed listed') (hfailure : ∀ e, (failure e).Alike (failure' e))
    (hfull : Renamed full full') (hr : Disk.Agree r r') :
    Together (k.makeListed full r listed failure).2 (k'.makeListed full' r' listed' failure').2 := by
  refine together_change hfull hr fun _ _ => ?_
  cases hlisted with
  | ok => exact .ok trivial
  | error e => exact .error (hfailure e)

theorem alike_walking (cause : Cause) (hpath : Renamed path path') :
    (walking path cause).Alike (walking path' cause) := .io_end "walking " cause hpath

theorem alike_lost (e : Errno) (hpath : Renamed path path')
    (hread : k.disk.readLink path = k'.disk.readLink path') :
    (k.lost path e).Alike (k'.lost path' e) := by
  rw [lost, lost, hread]
  split_ifs
  · exact .brokenLink _ hpath
  · exact alike_walking _ hpath

theorem together_referent {top top' : Place} {shown shown' : Bytes} (target : Bytes)
    (hpath : Renamed path path') (hshown : Renamed shown shown')
    (hshared : Disk.Shared top top' (k.disk.resolve path) (k'.disk.resolve path')) :
    Concur (fun found found' => ∃ here x, found = (top ++ here, x) ∧ found' = (top' ++ here, x))
      (k.referent path shown target) (k'.referent path' shown' target) := by
  rw [referent, referent]
  generalize k.disk.resolve path = r at hshared
  generalize k'.disk.resolve path' = r' at hshared
  cases hshared with
  | found here x => exact .ok ⟨here, x, rfl, rfl⟩
  | error e =>
    simp only [Except.mapError]
    split_ifs
    · exact .error (.brokenLink target hshown)
    · exact .error (.ofErrno "resolving " e hpath)

end

/-! ### One task of each copy -/

section

variable {k k' : Copying} {tree : Node} {src top top' root root' : Place} {dest dest' : Bytes}
  (hb : Disk.Beside k.disk k'.disk top top' tree) (hs : tree.IsSound)
  (hl : k.disk.LeadsTo dest root) (hl' : k'.disk.LeadsTo dest' root') (hdest : Renamed dest dest')
include hb hs hl hl' hdest

theorem together_openVisit {place here : Place} {mode : Nat} {es : Entries}
    (hr : Ready k.disk.root root (.entry place .link))
    (hr' : Ready k'.disk.root root' (.entry place .link))
    (hx : tree.get? here = some (.dir mode es)) (source source' : Bytes) :
    Together (k.openVisit ⟨source, dest⟩ (top ++ here) place).2
      (k'.openVisit ⟨source', dest'⟩ (top' ++ here) place).2 := by
  have hlocate := hb.locate_of_get? hs hx (by simp)
  have hread := hb.paths here
  have hsame := (hdest.below place).below []
  refine together_makeListed (agree_list hlocate) (fun e => alike_lost e hread ?_) hsame ?_
  · have htop : tree.get? ([] ++ here) = some (.dir mode es) := hx
    exact hb.readLink_eq (hs.names hx) (Way.isInside_names htop (by simp))
  · exact agree_makeDirs hl hl' hr hr' rfl rfl (join_ne_nil (join_ne_nil hl.ne_nil))
      (join_ne_nil (join_ne_nil hl'.ne_nil)) hsame (normal_join_nil (join_ne_nil hl.ne_nil))
      (normal_join_nil (join_ne_nil hl'.ne_nil))

theorem together_takeLink {place : Place}
    (hr : Ready k.disk.root root (.entry place .link))
    (hr' : Ready k'.disk.root root' (.entry place .link)) (hsound' : k'.disk.root.IsSound)
    (hstands : (Chore.entry place .link).Stands tree src)
    (hin : (Chore.entry place .link).Follows tree src →
      ((Chore.entry place .link).way src).IsInside tree) :
    Together (k.takeLink ⟨Disk.pathOf (top ++ src), dest⟩ place).2
      (k'.takeLink ⟨Disk.pathOf (top' ++ src), dest'⟩ place).2 := by
  obtain ⟨x, hx, hkind⟩ := Option.map_eq_some_iff.mp hstands.2
  obtain ⟨target, rfl⟩ : ∃ target, x = .link target := by
    cases x with
    | link target => exact ⟨target, rfl⟩
    | _ => cases hkind
  have hpath : Path.below (Disk.pathOf (top ++ src)) place = Disk.pathOf (top ++ (src ++ place)) :=
    hstands.path_eq hs hb.left
  have hpath' : Path.below (Disk.pathOf (top' ++ src)) place =
      Disk.pathOf (top' ++ (src ++ place)) := hstands.path_eq hs hb.right
  have hrenamed := hb.paths (src ++ place)
  rw [takeLink, takeLink]
  simp only [hpath, hpath', hb.readLink_of_get? hs hx]
  cases hread : k'.disk.readLink (Disk.pathOf (top' ++ (src ++ place))) with
  | error e => exact .error (.ofErrno "reading symlink " e hrenamed)
  | ok target' =>
    obtain rfl : target' = target := by
      obtain ⟨there, hgo, -⟩ := Disk.of_readLink_ok hread
      rcases Disk.readLink_pathOf hsound' ((Way.get?_under hb.right.holds _).trans hx)
        (by simp [hstands.1]) with hlong | hok
      · rw [hlong] at hread
        cases hread
      · exact Except.ok.inj (hread.symm.trans hok)
    dsimp only
    by_cases hsafe : SafeLink.isSafe place target' = true
    · rw [if_pos hsafe, if_pos hsafe]
      refine together_change (hdest.below place) ?_ fun _ _ => .ok trivial
      obtain ⟨ns, n, hns, ha, hspells, hdir, hfree⟩ := @writes_of_ready _ ⟨[], dest⟩ _ _ hl hr
      obtain ⟨ns', n', hns', ha', hspells', hdir', hfree'⟩ :=
        @writes_of_ready _ ⟨[], dest'⟩ _ _ hl' hr'
      have ht := hs.targets _ _ hx
      have hmake := ha.makeLink_free hspells hdir hfree ht
      have hmake' := ha'.makeLink_free hspells' hdir' hfree' ht
      rw [← hns] at hmake
      rw [← hns'] at hmake'
      dsimp only [Task.target] at hmake hmake'
      rw [hmake, hmake']
      exact Disk.agree_of_isShort (hdest.below place).length_eq
    · rw [if_neg hsafe, if_neg hsafe]
      have hway := hin ⟨target', hx, by simpa using hsafe⟩
      have hfound := together_referent target' hrenamed (.same (joinWith [Path.slash] place))
        (hb.resolve (hstands.names hs) hway)
      generalize hres : k.referent (Disk.pathOf (top ++ (src ++ place))) (joinWith [Path.slash] place)
        target' = r at hfound
      generalize k'.referent (Disk.pathOf (top' ++ (src ++ place))) (joinWith [Path.slash] place)
        target' = r' at hfound
      cases hfound with
      | error h => exact .error h
      | ok h =>
        obtain ⟨here, node, rfl, rfl⟩ := h
        rw [referent_eq_ok_iff] at hres
        obtain ⟨hget, hlink⟩ := Disk.of_resolve_ok hres
        rw [Way.get?_under hb.left.holds] at hget
        dsimp only
        let counted (k : Copying) : Copying :=
          { k with stats := { k.stats with replaced := k.stats.replaced + 1 } }
        have hl₁ : (counted k).disk.LeadsTo dest root := hl
        have hl₁' : (counted k').disk.LeadsTo dest' root' := hl'
        by_cases hdir : node.isDir = true
        · rw [if_pos hdir, if_pos hdir]
          have hb₁ : Disk.Beside (counted k).disk (counted k').disk top top' tree := hb
          obtain ⟨mode, es, rfl⟩ : ∃ mode es, node = .dir mode es := by
            cases node with
            | dir mode es => exact ⟨mode, es, rfl⟩
            | _ => cases hdir
          exact together_openVisit hb₁ hs hl₁ hl₁' hdest hr hr' hget _ _
        · rw [if_neg hdir, if_neg hdir]
          have hfile : (counted k).disk.fileAt (Disk.pathOf (top ++ here)) =
              (counted k').disk.fileAt (Disk.pathOf (top' ++ here)) :=
            (hb.locate_of_get? hs hget hlink).fileAt_eq
          have hr₁ : Ready (counted k).disk.root root (.entry place .link) := hr
          have hr₁' : Ready (counted k').disk.root root' (.entry place .link) := hr'
          exact together_copyFile hl₁ hl₁' hr₁ hr₁' rfl rfl hdest (hb.paths here) hfile

theorem together_enterVisit {v : Trip} {n : Name} {kind : Kind}
    (hr : Ready k.disk.root root ((Chore.inner v n kind).task top))
    (hr' : Ready k'.disk.root root' ((Chore.inner v n kind).task top'))
    (hstands : (Chore.inner v n kind).Stands tree src)
    (hin : ((Chore.inner v n kind).way src).IsInside tree) (source source' : Bytes) :
    Together (k.enterVisit ⟨source, dest⟩
        ⟨v.way.map (top ++ ·), Disk.pathOf (top ++ v.names), v.place⟩ n).2
      (k'.enterVisit ⟨source', dest'⟩
        ⟨v.way.map (top' ++ ·), Disk.pathOf (top' ++ v.names), v.place⟩ n).2 := by
  have hpath : Path.join (Disk.pathOf (top ++ v.names)) n = Disk.pathOf (top ++ (v.names ++ [n])) :=
    hstands.path_eq hs hb.left
  have hpath' : Path.join (Disk.pathOf (top' ++ v.names)) n =
      Disk.pathOf (top' ++ (v.names ++ [n])) := hstands.path_eq hs hb.right
  have hnames := hstands.names hs
  have hlocate := hb.locate hnames hin
  have hlost : ∀ e, (k.lost _ e).Alike (k'.lost _ e) := fun e =>
    alike_lost e (hb.paths _) (hb.readLink_eq hnames hin)
  have hsame := hdest.below (v.place ++ [n])
  change Disk.Shared _ _ (k.disk.locate (Disk.pathOf (top ++ (v.names ++ [n])))) _ at hlocate
  rw [enterVisit, enterVisit]
  exact together_makeListed (agree_listBelow (hpath ▸ hpath' ▸ hlocate)) (hpath ▸ hpath' ▸ hlost)
    hsame (agree_makeDirs hl hl' hr hr' rfl rfl (join_ne_nil hl.ne_nil)
      (join_ne_nil hl'.ne_nil) hsame rfl rfl)

theorem together_followLink {v : Trip} {n : Name}
    (hr : Ready k.disk.root root ((Chore.inner v n .link).task top))
    (hr' : Ready k'.disk.root root' ((Chore.inner v n .link).task top'))
    (hstands : (Chore.inner v n .link).Stands tree src)
    (hin : ((Chore.inner v n .link).way src).IsInside tree) (source source' : Bytes) :
    Together (k.followLink ⟨source, dest⟩
        ⟨v.way.map (top ++ ·), Disk.pathOf (top ++ v.names), v.place⟩ n).2
      (k'.followLink ⟨source', dest'⟩
        ⟨v.way.map (top' ++ ·), Disk.pathOf (top' ++ v.names), v.place⟩ n).2 := by
  have hpath : Path.join (Disk.pathOf (top ++ v.names)) n = Disk.pathOf (top ++ (v.names ++ [n])) :=
    hstands.path_eq hs hb.left
  have hpath' : Path.join (Disk.pathOf (top' ++ v.names)) n =
      Disk.pathOf (top' ++ (v.names ++ [n])) := hstands.path_eq hs hb.right
  have hnames := hstands.names hs
  have hrenamed := hb.paths (v.names ++ [n])
  have hread : k.disk.readLink (Disk.pathOf (top ++ (v.names ++ [n]))) =
      k'.disk.readLink (Disk.pathOf (top' ++ (v.names ++ [n]))) := hb.readLink_eq hnames hin
  have hlocate : Disk.Shared top top' (k.disk.locate (Disk.pathOf (top ++ (v.names ++ [n]))))
      (k'.disk.locate (Disk.pathOf (top' ++ (v.names ++ [n])))) := hb.locate hnames hin
  have hfile := hlocate.fileAt_eq
  have hresolve := together_referent
    ((k'.disk.readLink (Disk.pathOf (top' ++ (v.names ++ [n])))).toOption.getD []) hrenamed hrenamed
    (hb.resolve hnames hin)
  rw [followLink, followLink]
  simp only [hpath, hpath']
  generalize k.disk.locate (Disk.pathOf (top ++ (v.names ++ [n]))) = r at hlocate ⊢
  generalize k'.disk.locate (Disk.pathOf (top' ++ (v.names ++ [n]))) = r' at hlocate ⊢
  cases hlocate with
  | error e => exact .error (alike_lost e hrenamed hread)
  | found here node =>
    have hway : top ++ here ∈ v.way.map (top ++ ·) ↔ top' ++ here ∈ v.way.map (top' ++ ·) := by
      simp [List.mem_map]
    dsimp only
    rw [if_congr (and_congr_right fun _ => hway) rfl rfl]
    by_cases hloop : node.isDir = true ∧ top' ++ here ∈ v.way.map (top' ++ ·)
    · rw [if_pos hloop, if_pos hloop]
      exact .error (alike_walking _ hrenamed)
    · rw [if_neg hloop, if_neg hloop, hread]
      generalize k.referent _ _ _ = q at hresolve ⊢
      generalize k'.referent _ _ _ = q' at hresolve ⊢
      cases hresolve with
      | error h => exact .error h
      | ok h =>
        dsimp only
        split_ifs
        · exact together_enterVisit hb hs hl hl' hdest hr hr' hstands hin source source'
        · exact together_copyFile hl hl' hr hr' rfl rfl hdest hrenamed hfile

theorem together_take {c : Chore} (hr : Ready k.disk.root root (c.task top))
    (hr' : Ready k'.disk.root root' (c.task top')) (hsound' : k'.disk.root.IsSound)
    (hstands : c.Stands tree src) (hin : c.Follows tree src → (c.way src).IsInside tree) :
    Together (k.take ⟨Disk.pathOf (top ++ src), dest⟩ (c.task top)).2
      (k'.take ⟨Disk.pathOf (top' ++ src), dest'⟩ (c.task top')).2 := by
  have hnames := hstands.names hs
  have hpath := hstands.path_eq hs hb.left
  have hpath' := hstands.path_eq hs hb.right
  have hrenamed := hb.paths (c.names src)
  cases c with
  | entry place kind =>
    change Path.below _ place = _ at hpath hpath'
    cases kind with
    | directory =>
      have hlocate := hb.locate hnames (hstands.isInside_entry (by simp))
      rw [Chore.task, Chore.task, take, take]
      simp only [hpath, hpath']
      refine together_makeListed (agree_list hlocate) (fun e => alike_walking _ hrenamed)
        (hdest.below _) ?_
      obtain ⟨ns, n, hns, ha, hspells, hdir, hfree⟩ := @writes_of_ready _ ⟨[], dest⟩ _ _ hl hr
      obtain ⟨ns', n', hns', ha', hspells', hdir', hfree'⟩ :=
        @writes_of_ready _ ⟨[], dest'⟩ _ _ hl' hr'
      have hmake := ha.makeDir_free hspells hdir hfree 0o755
      have hmake' := ha'.makeDir_free hspells' hdir' hfree' 0o755
      rw [← hns] at hmake
      rw [← hns'] at hmake'
      change k.disk.makeDir (Path.below dest place) _ = _ at hmake
      change k'.disk.makeDir (Path.below dest' place) _ = _ at hmake'
      rw [hmake, hmake']
      exact Disk.agree_of_isShort (hdest.below place).length_eq
    | file =>
      have hfile := (hb.locate hnames (hstands.isInside_entry (by simp))).fileAt_eq
      rw [Chore.task, Chore.task, take, take, hpath, hpath']
      exact together_copyFile hl hl' hr hr' rfl rfl hdest hrenamed hfile
    | link => exact together_takeLink hb hs hl hl' hdest hr hr' hsound' hstands hin
    | special => exact .ok trivial
  | inner v n kind =>
    have hway := hin trivial
    change Path.join _ n = _ at hpath hpath'
    have hlocate := hb.locate hnames hway
    have hfile := hlocate.fileAt_eq
    cases kind with
    | directory => exact together_enterVisit hb hs hl hl' hdest hr hr' hstands hway _ _
    | link => exact together_followLink hb hs hl hl' hdest hr hr' hstands hway _ _
    | file | special =>
      rw [Chore.task, Chore.task, take, take, hpath, hpath']
      · exact together_copyFile hl hl' hr hr' rfl rfl hdest hrenamed hfile
      all_goals simp

end

/-! ### Whole copies -/

section

variable {tree : Node} {src top top' root root' : Place} {dest dest' : Bytes}
  (hs : tree.IsSound) (hconfined : IsConfined tree src)
  (hpaths : ∀ names, Renamed (Disk.pathOf (top ++ names)) (Disk.pathOf (top' ++ names)))
  (hdest : Renamed dest dest')
include hs hconfined hpaths hdest

/-- Two copies that have come equally far take their next tasks together, and come equally far again. -/
theorem concur_take (hoff : ¬ root <+: top) (hoff' : ¬ top <+: root) (hoff₁ : ¬ root' <+: top')
    (hoff₁' : ¬ top' <+: root') {k k' : Copying} {c : Chore} {rest : List Chore} {s : Sketch}
    (h : Drawn tree top src root dest k (c :: rest) s)
    (h' : Drawn tree top' src root' dest' k' (c :: rest) s) :
    Concur (fun t t' => ∃ told s', t.2 = told.map (Chore.task top) ∧ t'.2 = told.map (Chore.task top') ∧
        Drawn tree top src root dest t.1 (told ++ rest) s' ∧
        Drawn tree top' src root' dest' t'.1 (told ++ rest) s')
      (Taken.result (k.take ⟨Disk.pathOf (top ++ src), dest⟩ (c.task top)))
      (Taken.result (k'.take ⟨Disk.pathOf (top' ++ src), dest'⟩ (c.task top'))) := by
  have hfirst := h.take hs hconfined hoff hoff'
  have hfirst' := h'.take hs hconfined hoff₁ hoff₁'
  have hb : Disk.Beside k.disk k'.disk top top' tree := ⟨h.bears, h'.bears, hpaths⟩
  have htogether := together_take hb hs h.underway.leads h'.underway.leads hdest
    (h.underway.ready _ List.mem_cons_self) (h'.underway.ready _ List.mem_cons_self) h'.underway.sound
    (h.matched.stands c List.mem_cons_self) (hconfined c rest s.made h.matched.reached)
  generalize c.tell tree src = told at hfirst hfirst'
  generalize k.take _ (c.task top) = taken at hfirst htogether ⊢
  generalize k'.take _ (c.task top') = taken' at hfirst' htogether ⊢
  obtain ⟨k₁, r⟩ := taken
  obtain ⟨k₁', r'⟩ := taken'
  cases htogether with
  | error halike => exact .error halike
  | @ok more more' _ =>
    cases hfirst with
    | @ok _ told hfirst =>
      cases hfirst' with
      | ok hfirst' => exact .ok ⟨told.2, _, hfirst.1, hfirst'.1, hfirst.2, hfirst'.2⟩

/-- Tasks for the same chores are carried out together, on two disks. -/
def GoTogether (tree : Node) (src top top' root root' : Place) (dest dest' : Bytes)
    (carryOut carryOut' : List Task → Progress → Progress) : Prop :=
  ∀ k k' taken taken' cs rest s, Drawn tree top src root dest k (cs ++ rest) s →
    Drawn tree top' src root' dest' k' (cs ++ rest) s →
    Concur (fun k k' => ∃ s, Drawn tree top src root dest k rest s ∧
        Drawn tree top' src root' dest' k' rest s)
      (carryOut (cs.map (Chore.task top)) ⟨k, taken, none⟩).result
      (carryOut' (cs.map (Chore.task top')) ⟨k', taken', none⟩).result

variable (hoff : ¬ root <+: top) (hoff' : ¬ top <+: root) (hoff₁ : ¬ root' <+: top')
  (hoff₁' : ¬ top' <+: root')
include hoff hoff' hoff₁ hoff₁'

theorem goTogether_takeEach {below below' : List Task → Progress → Progress}
    (hbelow : GoTogether tree src top top' root root' dest dest' below below') :
    GoTogether tree src top top' root root' dest dest'
      (takeEach ⟨Disk.pathOf (top ++ src), dest⟩ below)
      (takeEach ⟨Disk.pathOf (top' ++ src), dest'⟩ below') := by
  intro k k' taken taken' cs rest s h h'
  induction cs generalizing k k' taken taken' s with
  | nil => exact .ok ⟨s, h, h'⟩
  | cons c cs ih =>
    have hfirst := concur_take hs hconfined hpaths hdest hoff hoff' hoff₁ hoff₁' h h'
    rw [List.map_cons, List.map_cons, takeEach, takeEach]
    dsimp only
    generalize k.take ⟨Disk.pathOf (top ++ src), dest⟩ (c.task top) = t at hfirst ⊢
    generalize k'.take ⟨Disk.pathOf (top' ++ src), dest'⟩ (c.task top') = t' at hfirst ⊢
    obtain ⟨k₁, r⟩ := t
    obtain ⟨k₁', r'⟩ := t'
    cases r with
    | error f =>
      cases r' with
      | error f' =>
        cases hfirst with
        | error h => exact .error h
      | ok more' => cases hfirst
    | ok more =>
      cases r' with
      | error f' => cases hfirst
      | ok more' =>
        cases hfirst with
        | ok hfirst =>
          obtain ⟨told, s', hmore, hmore', hdrawn, hdrawn'⟩ := hfirst
          obtain rfl : more = told.map (Chore.task top) := hmore
          obtain rfl : more' = told.map (Chore.task top') := hmore'
          have hall := hbelow k₁ k₁' (taken + 1) (taken' + 1) _ _ _ hdrawn hdrawn'
          dsimp only
          generalize below (told.map (Chore.task top)) ⟨k₁, taken + 1, none⟩ = p at hall ⊢
          generalize below' (told.map (Chore.task top')) ⟨k₁', taken' + 1, none⟩ = p' at hall ⊢
          obtain ⟨k₂, taken₂, stop⟩ := p
          obtain ⟨k₂', taken₂', stop'⟩ := p'
          -- Copies that were stopped take no more tasks.
          have hkeep : ∀ route below k taken f (tasks : List Task),
              takeEach route below tasks ⟨k, taken, some f⟩ = ⟨k, taken, some f⟩ := by
            intro route below k taken f tasks
            cases tasks <;> rfl
          cases stop with
          | none =>
            cases stop' with
            | none =>
              cases hall with
              | ok hall =>
                obtain ⟨s'', hdrawn, hdrawn'⟩ := hall
                exact ih _ _ _ _ _ hdrawn hdrawn'
            | some f' => cases hall
          | some f =>
            cases stop' with
            | none => cases hall
            | some f' =>
              rw [hkeep, hkeep]
              cases hall with
              | error h => exact .error h

theorem goTogether_takeAll (levels : Nat) :
    GoTogether tree src top top' root root' dest dest'
      (takeAll ⟨Disk.pathOf (top ++ src), dest⟩ levels)
      (takeAll ⟨Disk.pathOf (top' ++ src), dest'⟩ levels) := by
  induction levels with
  | zero =>
    intro k k' taken taken' cs rest s h h'
    cases cs with
    | nil => exact .ok ⟨s, h, h'⟩
    | cons c cs => exact .error (alike_walking _ (hpaths src))
  | succ levels ih =>
    exact goTogether_takeEach hs hconfined hpaths hdest hoff hoff' hoff₁ hoff₁' ih

theorem concur_finish {d d' : Disk} {cs : List Chore} {s : Sketch}
    (h : Drawn tree top src root dest ⟨d, {}⟩ cs s)
    (h' : Drawn tree top' src root' dest' ⟨d', {}⟩ cs s) :
    Concur (fun k k' => ∃ s, Drawn tree top src root dest k [] s ∧
        Drawn tree top' src root' dest' k' [] s)
      (finish ⟨Disk.pathOf (top ++ src), dest⟩ (cs.map (Chore.task top)) d).result
      (finish ⟨Disk.pathOf (top' ++ src), dest'⟩ (cs.map (Chore.task top')) d').result :=
  goTogether_takeAll hs hconfined hpaths hdest hoff hoff' hoff₁ hoff₁' _ _ _ _ _ cs [] s
    (by rwa [List.append_nil]) (by rwa [List.append_nil])

end

theorem concur_tasks {d d' : Disk} {tree : Node} {top top' src : Place} {mode : Nat} {es : Entries}
    (hb : Disk.Beside d d' top top' tree) (hs : tree.IsSound) (hsound : d.root.IsSound)
    (hx : tree.get? src = some (.dir mode es)) :
    Concur (fun ts ts' => ts = (chores es).map (Chore.task top) ∧ ts' = (chores es).map (Chore.task top'))
      (tasks d (Disk.pathOf (top ++ src))) (tasks d' (Disk.pathOf (top' ++ src))) := by
  have hshared := hb.locate_of_get? hs hx (by simp)
  have hchores : ∀ {e : Disk} {top place : Place} {path : Bytes},
      e.locate path = .ok (place, .dir mode es) →
        tasks e path = .ok ((chores es).map (Chore.task top)) := by
    intro e top place path hloc
    rw [tasks_of_locate hloc, chores, List.map_map]
    rfl
  have hlong : ∀ {e : Disk} {path : Bytes} {errno : Errno}, e.locate path = .error errno →
      tasks e path = .error (walking path (.errno errno)) := by
    intro e path errno hloc
    rw [tasks, Disk.stat, hloc]
    rfl
  generalize hloc' : d'.locate (Disk.pathOf (top' ++ src)) = r' at hshared
  rcases Disk.shows_pathOf hb.left hsound hx (by simp) with hloc | hloc
  · rw [hloc] at hshared
    cases hshared
    rw [hlong hloc, hlong hloc']
    exact .error (alike_walking _ (hb.paths src))
  · have hloc : d.locate (Disk.pathOf (top ++ src)) = .ok (top ++ src, .dir mode es) := hloc
    rw [hloc] at hshared
    generalize hfound : (Except.ok (top ++ src, Node.dir mode es) : Except Errno (Place × Node)) = r
      at hshared
    cases hshared with
    | error e => cases hfound
    | found here x =>
      obtain ⟨hhere, rfl⟩ := Prod.mk.inj (Except.ok.inj hfound)
      obtain rfl := List.append_cancel_left hhere
      rw [hchores hloc, hchores hloc']
      exact .ok ⟨rfl, rfl⟩

end Copying

theorem concur_item {root root' : Bytes} (h : Renamed root root') {place : Place} {node : Node} :
    Concur Eq (Fingerprint.item root place node) (Fingerprint.item root' place node) := by
  have hpath := h.below place
  simp only [Fingerprint.item, throw, throwThe, MonadExceptOf.throw, bind, Except.bind, pure,
    Except.pure, hpath.length_eq]
  split_ifs with hvalid hlimit
  · exact .error (.same _)
  · exact .error (.ofErrno "reading metadata of " _ hpath)
  cases node with
  | file mode data =>
    dsimp only
    cases Disk.contents (.file mode data) with
    | ok data => exact .ok rfl
    | error e => exact .error (.ofErrno "opening " e hpath)
  | special kind => exact .error (.pathInvalid _ hpath)
  | _ => exact .ok rfl

theorem concur_ofTree {d d' : Disk} {path path' : Bytes} {mode mode' : Nat} {es : Entries}
    (hpath : Renamed path path') (hstat : d.stat path = .ok (.dir mode es))
    (hstat' : d'.stat path' = .ok (.dir mode' es)) :
    Concur Eq (Fingerprint.ofTree d path) (Fingerprint.ofTree d' path') := by
  rw [Fingerprint.ofTree, Fingerprint.ofTree, Fingerprint.items, Fingerprint.items, hstat, hstat']
  refine Concur.bind (Concur.mapM fun e _ => concur_item hpath) ?_
  rintro is _ rfl
  exact .ok rfl

end Archive

end Depot
