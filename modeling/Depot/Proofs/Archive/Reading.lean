import Depot.Archive.Copying
import Depot.Proofs.Files.Making

/-!
A task of a copy taken apart. First it looks things up: that decides what it makes and which tasks it
gives, or how it fails. Then it makes one node, and only names that are too long can keep it from that.
-/

namespace Depot.Archive

open Files

namespace Task

/-- Where the copy of an entry goes, counted from the directory that is filled. -/
def target : Task → Place
  | .entry place _ => place
  | .inner v n _ => v.place ++ [n]

def kind : Task → Kind
  | .entry _ kind => kind
  | .inner _ _ kind => kind

/-- The task of an entry of the directory at `here`, which is what this task copies. -/
def child (task : Task) (here : Place) (n : Name) (kind : Kind) : Task :=
  match task with
  | .entry place .directory => .entry (place ++ [n]) kind
  | .entry place _ => .inner ⟨[here], Disk.pathOf here, place⟩ n kind
  | .inner v m _ => .inner ⟨here :: v.way, Path.join v.path m, v.place ++ [m]⟩ n kind

theorem target_child (task : Task) (here : Place) (n : Name) (kind : Kind) :
    (task.child here n kind).target = task.target ++ [n] := by
  cases task with
  | entry place kind' => cases kind' <;> rfl
  | inner v m kind' => rfl

end Task

/-- What a task copies, and where that is. -/
inductive Reads (d : Disk) (source : Bytes) : Task → Place → Node → Prop
  | plain {place here : Place} {kind : Kind} {node : Node} (hkind : kind ≠ .link)
    (h : d.locate (Path.below source place) = .ok (here, node)) :
    Reads d source (.entry place kind) here node
  | replaced {place here : Place} {target : Bytes} {node : Node}
    (ht : d.readLink (Path.below source place) = .ok target)
    (hnot : SafeLink.isSafe place target = false)
    (h : d.resolve (Path.below source place) = .ok (here, node)) :
    Reads d source (.entry place .link) here node
  | inner {v : Visit} {n : Name} {here : Place} {kind : Kind} {node : Node}
    (hway : kind = .link → node.isDir = true → here ∉ v.way)
    (h : d.locate (Path.join v.path n) = .ok (here, node)) :
    Reads d source (.inner v n kind) here node

theorem Reads.get? {d : Disk} {source : Bytes} {task : Task} {here : Place} {node : Node}
    (h : Reads d source task here node) : d.root.get? here = some node := by
  cases h with
  | plain _ h => exact Disk.get?_of_locate_ok h
  | replaced _ _ h => exact (Disk.of_resolve_ok h).1
  | inner _ h => exact Disk.get?_of_locate_ok h

/-- A task whose turn may come: the directory above its place is there, and at its place is
nothing. -/
structure Ready (tree : Node) (root : Place) (task : Task) : Prop where
  ne_nil : task.target ≠ []
  names : ∀ n ∈ task.target, IsName n
  dir : tree.IsDirAt (root ++ task.target.dropLast)
  free : tree.get? (root ++ task.target) = none

/-- What a task finds: what it is to make, if anything, and then the tasks that it gives, unless there
is a directory that cannot be listed. -/
abbrev Finding := Except Failure (Option Node × Except Failure (List Task))

/-- What is found in the end. -/
def Finding.whole (r : Finding) : Except Failure (Option Node × List Task) :=
  r >>= fun found => found.2.map fun more => (found.1, more)

@[simp] theorem Finding.whole_error (f : Failure) : whole (.error f) = .error f := rfl

@[simp] theorem Finding.whole_ok (node? : Option Node) (more : List Task) :
    whole (.ok (node?, .ok more)) = .ok (node?, more) := rfl

@[simp] theorem Finding.whole_unlisted (node? : Option Node) (f : Failure) :
    whole (.ok (node?, .error f)) = .error f := rfl

namespace Copying

def readFile (d : Disk) (path : Bytes) : Finding :=
  match d.fileAt path with
  | .ok file => .ok (some (.copied file.1 file.2), .ok [])
  | .error e => .error (.ofErrno ("copying " ++ Utf8.toStringLossy path) e)

def readDir (listed : Except Errno (List Task)) (failure : Errno → Failure) : Finding :=
  .ok (some (.dir 0o755 []), listed.mapError failure)

end Copying

open Copying in
/-- What a task finds on a disk. -/
def Task.read (d : Disk) (source : Bytes) : Task → Finding
  | .entry place .directory =>
    let path := Path.below source place
    readDir ((⟨d, {}⟩ : Copying).list path fun n kind => .entry (place ++ [n]) kind) fun e =>
      walking path (.errno e)
  | .entry place .file => readFile d (Path.below source place)
  | .entry place .link =>
    let path := Path.below source place
    match d.readLink path with
    | .error e => .error (.ofErrno ("reading symlink " ++ Utf8.toStringLossy path) e)
    | .ok target =>
      if SafeLink.isSafe place target then .ok (some (.link target), .ok [])
      else match (⟨d, {}⟩ : Copying).referent path (joinWith [Path.slash] place) target with
        | .error f => .error f
        | .ok (here, node) =>
          let path := Disk.pathOf here
          if node.isDir then
            readDir ((⟨d, {}⟩ : Copying).list path (.inner ⟨[here], path, place⟩))
              ((⟨d, {}⟩ : Copying).lost path)
          else readFile d path
  | .entry _ .special => .ok (none, .ok [])
  | .inner v n .directory =>
    readDir ((⟨d, {}⟩ : Copying).listBelow v n) ((⟨d, {}⟩ : Copying).lost (Path.join v.path n))
  | .inner v n .link =>
    let path := Path.join v.path n
    match d.locate path with
    | .error e => .error ((⟨d, {}⟩ : Copying).lost path e)
    | .ok (here, node) =>
      if node.isDir ∧ v.way.contains here then .error (walking path (.other "file system loop found"))
      else match (⟨d, {}⟩ : Copying).referent path path ((d.readLink path).toOption.getD []) with
        | .error f => .error f
        | .ok _ =>
          if node.isDir then
            readDir ((⟨d, {}⟩ : Copying).listBelow v n) ((⟨d, {}⟩ : Copying).lost path)
          else readFile d path
  | .inner v n _ => readFile d (Path.join v.path n)

/-- How a task spells the path of what it makes: a directory in the place of a link has a slash at the
end. -/
def Task.spelling (dest : Bytes) (task : Task) (node : Node) : Bytes :=
  match task, node with
  | .entry place .link, .dir .. => Path.below (Path.below dest place) []
  | task, _ => Path.below dest task.target

theorem Task.isShort_below {dest : Bytes} {task : Task} {node : Node}
    (h : Disk.IsShort (task.spelling dest node) task.target) :
    Disk.IsShort (Path.below dest task.target) task.target := by
  refine ⟨Nat.le_trans ?_ h.path, h.names⟩
  rw [Task.spelling.eq_def]
  split
  · exact length_le_join_nil _
  · exact Nat.le_refl _

namespace Stats

instance : Add Stats :=
  ⟨fun a b => ⟨a.files + b.files, a.links + b.links, a.replaced + b.replaced⟩⟩

instance : Zero Stats := ⟨{}⟩

/-- What a node counts for. -/
def ofNode : Node → Stats
  | .file .. => { files := 1 }
  | .link _ => { links := 1 }
  | _ => {}

end Stats

/-- What a task counts for when it makes a node: an entry that is a link and not kept is replaced. -/
def Task.tally (task : Task) (node : Node) : Stats :=
  match task, node with
  | .entry _ .link, .link target => .ofNode (.link target)
  | .entry _ .link, node => .ofNode node + { replaced := 1 }
  | _, node => .ofNode node

/-- How a task comes out of what it finds: it makes the node unless its path is too long. -/
inductive Writes (c : Copying) (place : Place) (fits : Node → Prop) (tally : Node → Stats) :
    Finding → Taken → Prop
  | failed (f : Failure) (stats : Stats) : Writes c place fits tally (.error f) (⟨c.disk, stats⟩, .error f)
  | skipped (more : Except Failure (List Task)) : Writes c place fits tally (.ok (none, more)) (c, more)
  | made {node : Node} (more : Except Failure (List Task)) (h : fits node) :
    Writes c place fits tally (.ok (some node, more))
      (⟨c.disk.put place node, c.stats + tally node⟩, more)
  | refused {node : Node} (more : Except Failure (List Task)) (h : ¬ fits node) (stats : Stats)
    (context : String) :
    Writes c place fits tally (.ok (some node, more))
      (⟨c.disk, stats⟩, .error (.ofErrno context .nameTooLong))

namespace Writes

variable {c : Copying} {place : Place} {fits fits' : Node → Prop} {tally tally' : Node → Stats}
  {r : Finding} {t : Taken}

theorem congr (h : Writes c place fits tally r t)
    (hsame : ∀ node more, r = .ok (some node, more) → (fits node ↔ fits' node) ∧
      tally node = tally' node) : Writes c place fits' tally' r t := by
  cases h with
  | failed f stats => exact .failed f stats
  | skipped more => exact .skipped more
  | made more h =>
    obtain ⟨hfits, htally⟩ := hsame _ _ rfl
    rw [htally]
    exact .made more (hfits.mp h)
  | refused more h stats context =>
    exact .refused more (fun hfit => h ((hsame _ _ rfl).1.mpr hfit)) stats context

/-- A replaced link is counted before it is known what it leads to. -/
theorem of_counted
    (h : Writes ⟨c.disk, { c.stats with replaced := c.stats.replaced + 1 }⟩ place fits tally r t)
    (hsome : ∀ more, r ≠ .ok (none, more)) :
    Writes c place fits (fun node => tally node + { replaced := 1 }) r t := by
  cases h with
  | failed f stats => exact .failed f stats
  | skipped more => exact absurd rfl (hsome more)
  | @made node more h =>
    have hstats : ({ c.stats with replaced := c.stats.replaced + 1 } : Stats) + tally node =
        c.stats + (tally node + { replaced := 1 }) := by
      show Stats.mk _ _ _ = Stats.mk _ _ _
      rw [Nat.add_right_comm, Nat.add_assoc]
      rfl
    rw [hstats]
    exact .made more h
  | refused more h stats context => exact .refused more h stats context

end Writes

namespace Copying

variable {c c' : Copying} {route : Route} {root : Place} {task : Task}

/-- The entry of a task is free, so what the task makes depends on its path alone. -/
theorem writes_of_ready (hl : c.disk.LeadsTo route.dest root) (hr : Ready c.disk.root root task) :
    ∃ ns n, task.target = ns ++ [n] ∧ c.disk.Arrives route.dest root ∧
      Spells route.dest (ns ++ [n]) (Path.below route.dest task.target) ∧
      c.disk.root.IsDirAt (root ++ ns) ∧ c.disk.root.get? (root ++ ns ++ [n]) = none := by
  obtain ⟨hne, hnames, hdir, hfree⟩ := hr
  obtain ⟨ns, n, htarget⟩ := List.eq_nil_or_concat task.target |>.resolve_left hne
  rw [List.concat_eq_append] at htarget
  rw [htarget] at hne hnames hdir hfree ⊢
  refine ⟨ns, n, rfl, hl.arrives, spells_below hl.ne_nil hl.nul hne hnames, ?_, ?_⟩
  · simpa using hdir
  · rwa [List.append_assoc]

theorem writes_copyFile (hl : c.disk.LeadsTo route.dest root) (hr : Ready c.disk.root root task)
    (path : Bytes) :
    Writes c (root ++ task.target)
      (fun _ => Disk.IsShort (Path.below route.dest task.target) task.target) Stats.ofNode
      (readFile c.disk path) (c.copyFile path (Path.below route.dest task.target)) := by
  obtain ⟨ns, n, htarget, ha, hspells, hdir, hfree⟩ := writes_of_ready hl hr
  rw [copyFile, change.eq_def, readFile, ha.copy_free hspells hdir hfree path]
  cases hfile : c.disk.fileAt path with
  | error e => exact .failed _ _
  | ok file =>
    simp only [bind, Except.bind]
    by_cases hshort : Disk.IsShort (Path.below route.dest task.target) (ns ++ [n])
    · rw [if_pos hshort, List.append_assoc, ← htarget]
      exact .made (.ok []) (htarget ▸ hshort)
    · rw [if_neg hshort]
      exact .refused (.ok []) (htarget ▸ hshort) _ _

theorem writes_readDir {r : Except Errno Disk} {dest : Bytes} {listed : Except Errno (List Task)}
    {failure : Errno → Failure} {place : Place} {fits : Prop} [Decidable fits]
    (hmake : r = if fits then .ok (c.disk.put place (.dir 0o755 [])) else .error .nameTooLong) :
    Writes c place (fun _ => fits) Stats.ofNode (readDir listed failure)
      (c.makeListed dest r listed failure) := by
  rw [readDir, makeListed, change.eq_def, hmake]
  by_cases hfits : fits
  · rw [if_pos hfits]
    exact .made _ hfits
  · rw [if_neg hfits]
    exact .refused _ hfits _ _

/-- A directory in the place of a link, or below one, is made with those above it. -/
theorem makeDirs_of_ready (hl : c.disk.LeadsTo route.dest root)
    (hr : Ready c.disk.root root task) {dest : Bytes} (hne : dest ≠ [])
    (hnormal : normal dest = normal (Path.below route.dest task.target)) :
    c.disk.makeDirs dest =
      if Disk.IsShort dest task.target then
        .ok (c.disk.put (root ++ task.target) (.dir 0o755 []))
      else .error .nameTooLong := by
  obtain ⟨ns, n, htarget, ha, hspells, hdir, hfree⟩ := writes_of_ready hl hr
  have hmake := ha.makeDirs_free hspells.normal hdir hfree hne hnormal
  rwa [List.append_assoc, ← htarget] at hmake

theorem writes_openVisit (hl : c.disk.LeadsTo route.dest root) {place : Place}
    (hr : Ready c.disk.root root (.entry place .link)) (here : Place) :
    Writes c (root ++ place)
      (fun _ => Disk.IsShort (Path.below (Path.below route.dest place) []) place) Stats.ofNode
      (readDir
        ((⟨c.disk, {}⟩ : Copying).list (Disk.pathOf here) (.inner ⟨[here], Disk.pathOf here, place⟩))
        ((⟨c.disk, {}⟩ : Copying).lost (Disk.pathOf here)))
      (c.openVisit route here place) := by
  have hne : Path.below route.dest place ≠ [] := join_ne_nil hl.ne_nil
  exact writes_readDir (makeDirs_of_ready hl hr (join_ne_nil hne) (normal_join_nil hne))

theorem writes_enterVisit (hl : c.disk.LeadsTo route.dest root) {v : Visit} {n : Name} {kind : Kind}
    (hr : Ready c.disk.root root (.inner v n kind)) :
    Writes c (root ++ (v.place ++ [n]))
      (fun _ => Disk.IsShort (Path.below route.dest (v.place ++ [n])) (v.place ++ [n])) Stats.ofNode
      (readDir ((⟨c.disk, {}⟩ : Copying).listBelow v n)
        ((⟨c.disk, {}⟩ : Copying).lost (Path.join v.path n)))
      (c.enterVisit route v n) :=
  writes_readDir (makeDirs_of_ready hl hr (join_ne_nil hl.ne_nil) rfl)

theorem of_list_ok {path : Bytes} {task : Name → Kind → Task} {tasks : List Task}
    (h : c.list path task = .ok tasks) :
    ∃ here mode es, c.disk.locate path = .ok (here, .dir mode es) ∧
      tasks = es.map fun e => task e.1 e.2.kind := by
  rw [list, Disk.entries, Disk.stat] at h
  cases hloc : c.disk.locate path with
  | error e =>
    rw [hloc] at h
    cases h
  | ok found =>
    obtain ⟨here, node⟩ := found
    rw [hloc] at h
    cases node with
    | dir mode es =>
      refine ⟨here, mode, es, rfl, ?_⟩
      exact (Except.ok.inj h).symm.trans (List.map_map ..)
    | _ => cases h

theorem of_listBelow_ok {v : Visit} {n : Name} {tasks : List Task}
    (h : c.listBelow v n = .ok tasks) :
    ∃ here mode es, c.disk.locate (Path.join v.path n) = .ok (here, .dir mode es) ∧
      tasks = es.map fun e =>
        .inner ⟨here :: v.way, Path.join v.path n, v.place ++ [n]⟩ e.1 e.2.kind := by
  rw [listBelow] at h
  cases hloc : c.disk.locate (Path.join v.path n) with
  | error e =>
    rw [hloc] at h
    cases h
  | ok found =>
    obtain ⟨here, node⟩ := found
    rw [hloc] at h
    obtain ⟨here', mode, es, hloc', rfl⟩ := of_list_ok h
    obtain ⟨rfl, rfl⟩ := Prod.mk.inj (Except.ok.inj (hloc.symm.trans hloc'))
    exact ⟨here, mode, es, rfl, rfl⟩

theorem readFile_eq_ok {d : Disk} {path : Bytes} {node? : Option Node}
    {more : Except Failure (List Task)} (h : readFile d path = .ok (node?, more)) :
    ∃ mode data, d.fileAt path = .ok (mode, data) ∧ node? = some (.copied mode data) ∧
      more = .ok [] := by
  rw [readFile] at h
  cases hfile : d.fileAt path with
  | error e =>
    rw [hfile] at h
    cases h
  | ok file =>
    rw [hfile] at h
    obtain ⟨rfl, rfl⟩ := Prod.mk.inj (Except.ok.inj h)
    exact ⟨file.1, file.2, rfl, rfl, rfl⟩

theorem readDir_eq_ok {listed : Except Errno (List Task)} {failure : Errno → Failure}
    {node? : Option Node} {more : List Task} (h : readDir listed failure = .ok (node?, .ok more)) :
    node? = some (.dir 0o755 []) ∧ listed = .ok more := by
  rw [readDir] at h
  obtain ⟨rfl, hmore⟩ := Prod.mk.inj (Except.ok.inj h)
  cases listed with
  | error e => cases hmore
  | ok tasks => exact ⟨rfl, congrArg _ (Except.ok.inj hmore)⟩

/-- How a task spells the path of a file is how it spells all but directories. -/
theorem spelling_copied (dest : Bytes) (task : Task) (mode : Nat) (data : Bytes) :
    task.spelling dest (.copied mode data) = Path.below dest task.target := by
  cases task with
  | entry place kind => cases kind <;> rfl
  | inner v n kind => rfl

theorem writes_takeLink (hs : c.disk.root.IsSound) (hl : c.disk.LeadsTo route.dest root)
    {place : Place} (hr : Ready c.disk.root root (.entry place .link)) :
    Writes c (root ++ place)
      (fun node => Disk.IsShort (Task.spelling route.dest (.entry place .link) node) place)
      (Task.tally (.entry place .link)) (Task.read c.disk route.source (.entry place .link))
      (c.takeLink route place) := by
  rw [takeLink, Task.read]
  dsimp only
  cases ht : c.disk.readLink (Path.below route.source place) with
  | error e => exact .failed _ _
  | ok target =>
    dsimp only
    by_cases hsafe : SafeLink.isSafe place target = true
    · rw [if_pos hsafe, if_pos hsafe]
      obtain ⟨ns, n, htarget, ha, hspells, hdir, hfree⟩ := writes_of_ready hl hr
      obtain ⟨there, -, hlink⟩ := Disk.of_readLink_ok ht
      have hmake := ha.makeLink_free hspells hdir hfree (hs.targets _ _ hlink)
      rw [List.append_assoc, ← htarget, Task.target] at hmake
      rw [change.eq_def, hmake]
      by_cases hshort : Disk.IsShort (Path.below route.dest place) place
      · rw [if_pos hshort]
        exact .made (.ok []) hshort
      · rw [if_neg hshort]
        exact .refused (.ok []) hshort _ _
    · rw [if_neg hsafe, if_neg hsafe]
      have hreferent : (⟨c.disk, {}⟩ : Copying).referent (Path.below route.source place)
          (joinWith [Path.slash] place) target = c.referent (Path.below route.source place)
            (joinWith [Path.slash] place) target := rfl
      rw [hreferent]
      cases hres : c.referent (Path.below route.source place) (joinWith [Path.slash] place) target with
      | error f => exact .failed _ _
      | ok found =>
        obtain ⟨here, node⟩ := found
        dsimp only
        let counted : Copying := ⟨c.disk, { c.stats with replaced := c.stats.replaced + 1 }⟩
        by_cases hdir : node.isDir = true
        · rw [if_pos hdir, if_pos hdir]
          have hopen := writes_openVisit (c := counted) hl hr here
          refine (hopen.of_counted ?_).congr ?_
          · rintro more ⟨⟩
          · rintro node more ⟨⟩
            exact ⟨Iff.rfl, rfl⟩
        · rw [if_neg hdir, if_neg hdir]
          have hcopy := writes_copyFile (c := counted) hl hr (Disk.pathOf here)
          refine (hcopy.of_counted ?_).congr ?_
          · intro more h
            obtain ⟨_, _, _, hnone, _⟩ := readFile_eq_ok h
            cases hnone
          · intro node more h
            obtain ⟨mode, data, _, hnode, _⟩ := readFile_eq_ok h
            obtain rfl := Option.some.inj hnode
            exact ⟨Iff.rfl, rfl⟩

theorem writes_followLink (hl : c.disk.LeadsTo route.dest root) {v : Visit} {n : Name}
    (hr : Ready c.disk.root root (.inner v n .link)) :
    Writes c (root ++ (v.place ++ [n]))
      (fun node => Disk.IsShort (Task.spelling route.dest (.inner v n .link) node) (v.place ++ [n]))
      (Task.tally (.inner v n .link)) (Task.read c.disk route.source (.inner v n .link))
      (c.followLink route v n) := by
  rw [followLink, Task.read]
  simp only [List.contains_iff_mem]
  cases hloc : c.disk.locate (Path.join v.path n) with
  | error e => exact .failed _ _
  | ok found =>
    obtain ⟨here, node⟩ := found
    dsimp only
    by_cases hloop : node.isDir = true ∧ here ∈ v.way
    · rw [if_pos hloop, if_pos hloop]
      exact .failed _ _
    rw [if_neg hloop, if_neg hloop]
    have hreferent : (⟨c.disk, {}⟩ : Copying).referent (Path.join v.path n) (Path.join v.path n)
        ((c.disk.readLink (Path.join v.path n)).toOption.getD []) =
      c.referent (Path.join v.path n) (Path.join v.path n)
        ((c.disk.readLink (Path.join v.path n)).toOption.getD []) := rfl
    rw [hreferent]
    cases c.referent (Path.join v.path n) (Path.join v.path n)
        ((c.disk.readLink (Path.join v.path n)).toOption.getD []) with
    | error f => exact .failed _ _
    | ok found' =>
      dsimp only
      by_cases hdir : node.isDir = true
      · rw [if_pos hdir, if_pos hdir]
        exact (writes_enterVisit hl hr).congr fun node more h => ⟨Iff.rfl, rfl⟩
      · rw [if_neg hdir, if_neg hdir]
        refine (writes_copyFile hl hr _).congr fun node more h => ?_
        obtain ⟨mode, data, _, hnode, _⟩ := readFile_eq_ok h
        obtain rfl := Option.some.inj hnode
        exact ⟨Iff.rfl, rfl⟩

/-- A task makes what it finds, unless the path is too long. -/
theorem writes_take (hs : c.disk.root.IsSound) (hl : c.disk.LeadsTo route.dest root)
    (hr : Ready c.disk.root root task) :
    Writes c (root ++ task.target)
      (fun node => Disk.IsShort (task.spelling route.dest node) task.target) task.tally
      (task.read c.disk route.source) (c.take route task) := by
  have hfile : ∀ path, (∀ mode data, task.tally (.copied mode data) = { files := 1 }) →
      Writes c (root ++ task.target)
        (fun node => Disk.IsShort (task.spelling route.dest node) task.target) task.tally
        (readFile c.disk path) (c.copyFile path (Path.below route.dest task.target)) := by
    intro path htally
    refine (writes_copyFile hl hr path).congr fun node more h => ?_
    obtain ⟨mode, data, _, hnode, _⟩ := readFile_eq_ok h
    obtain rfl := Option.some.inj hnode
    rw [spelling_copied]
    exact ⟨Iff.rfl, (htally mode data).symm⟩
  cases task with
  | entry place kind =>
    cases kind with
    | directory =>
      obtain ⟨ns, n, htarget, ha, hspells, hdir, hfree⟩ := writes_of_ready hl hr
      have hmake := ha.makeDir_free hspells hdir hfree 0o755
      rw [List.append_assoc, ← htarget] at hmake
      rw [take, Task.read]
      exact (writes_readDir hmake).congr fun node more h => ⟨Iff.rfl, rfl⟩
    | file => exact hfile _ fun _ _ => rfl
    | link => exact writes_takeLink hs hl hr
    | special => exact .skipped (.ok [])
  | inner v n kind =>
    cases kind with
    | directory => exact (writes_enterVisit hl hr).congr fun node more h => ⟨Iff.rfl, rfl⟩
    | link => exact writes_followLink hl hr
    | _ => exact hfile _ fun _ _ => rfl

theorem readFile_of_fileAt {d : Disk} {path : Bytes} {here : Place} {mode : Nat} {data : Bytes}
    (hloc : d.locate path = .ok (here, .file mode data))
    (hdata : Disk.contents (.file mode data) = .ok data) :
    readFile d path = .ok (some (.copied mode data), .ok []) := by
  rw [readFile, Disk.fileAt_eq_ok_iff.mpr ⟨here, hloc, hdata⟩]

theorem list_of_locate {path : Bytes} {here : Place} {mode : Nat} {es : Entries}
    (hloc : c.disk.locate path = .ok (here, .dir mode es)) (task : Name → Kind → Task) :
    c.list path task = .ok (es.map fun e => task e.1 e.2.kind) := by
  rw [list, Disk.entries, Disk.stat, hloc]
  exact congrArg Except.ok (List.map_map ..)

theorem listBelow_of_locate {v : Visit} {n : Name} {here : Place} {mode : Nat} {es : Entries}
    (hloc : c.disk.locate (Path.join v.path n) = .ok (here, .dir mode es)) :
    c.listBelow v n = .ok (es.map fun e =>
      .inner ⟨here :: v.way, Path.join v.path n, v.place ++ [n]⟩ e.1 e.2.kind) := by
  rw [listBelow, hloc]
  exact list_of_locate hloc _

theorem readDir_of_listed {listed : Except Errno (List Task)} {tasks : List Task}
    (h : listed = .ok tasks) (failure : Errno → Failure) :
    readDir listed failure = .ok (some (.dir 0o755 []), .ok tasks) := by
  rw [readDir, h]
  rfl

theorem referent_eq_ok_iff {c : Copying} {path shown target : Bytes} {found : Place × Node} :
    c.referent path shown target = .ok found ↔ c.disk.resolve path = .ok found := by
  rw [referent]
  cases c.disk.resolve path with
  | error e => simp [Except.mapError]
  | ok found' => simp [Except.mapError]

end Copying

/-! ### What can be found -/

/-- What a task looks for is there, and wherever it is looked up. -/
structure Meets (d : Disk) (source : Bytes) (task : Task) (here : Place) (node : Node) : Prop where
  reads : Reads d source task here node
  kind : task.kind ≠ .link → (node.isDir = true ↔ task.kind = .directory)
  special : ∀ place, task ≠ .entry place .special
  named : ∀ place, task = .entry place .link →
    d.locate (Disk.pathOf here) = .ok (here, node)
  resolved : ∀ v n, task = .inner v n .link → d.resolve (Path.join v.path n) = .ok (here, node)

/-- What a task provides when it does not fail to look things up. -/
inductive Provides (d : Disk) (source : Bytes) (task : Task) : Option Node → List Task → Prop
  | skipped {place : Place} (h : task = .entry place .special) : Provides d source task none []
  | kept {place : Place} {target : Bytes} (h : task = .entry place .link)
    (ht : d.readLink (Path.below source place) = .ok target)
    (hsafe : SafeLink.isSafe place target = true) :
    Provides d source task (some (.link target)) []
  | filled {here : Place} {mode : Nat} {data : Bytes}
    (h : Meets d source task here (.file mode data))
    (hdata : Disk.contents (.file mode data) = .ok data) :
    Provides d source task (some (.copied mode data)) []
  | opened {here : Place} {mode : Nat} {es : Entries} (h : Meets d source task here (.dir mode es)) :
    Provides d source task (some (.dir 0o755 [])) (es.map fun e => task.child here e.1 e.2.kind)

namespace Task

variable {d : Disk} {source : Bytes} {task : Task} {node? : Option Node} {more : List Task}

theorem provides_of_readFile {path : Bytes}
    (hmeets : ∀ here mode data, d.locate path = .ok (here, .file mode data) →
      Meets d source task here (.file mode data))
    (h : Copying.readFile d path = .ok (node?, .ok more)) : Provides d source task node? more := by
  obtain ⟨mode, data, hfile, rfl, hmore⟩ := Copying.readFile_eq_ok h
  obtain rfl := Except.ok.inj hmore
  obtain ⟨here, hloc, hdata⟩ := Disk.fileAt_eq_ok_iff.mp hfile
  exact .filled (hmeets here mode data hloc) hdata

theorem provides_of_read_link (hs : d.root.IsSound) {place : Place}
    (h : Task.read d source (.entry place .link) = .ok (node?, .ok more)) :
    Provides d source (.entry place .link) node? more := by
  rw [Task.read] at h
  cases ht : d.readLink (Path.below source place) with
  | error e => simp [ht] at h
  | ok target =>
    simp only [ht] at h
    by_cases hsafe : SafeLink.isSafe place target = true
    · rw [if_pos hsafe] at h
      obtain ⟨rfl, hmore⟩ := Prod.mk.inj (Except.ok.inj h)
      obtain rfl := Except.ok.inj hmore
      exact .kept rfl ht hsafe
    rw [if_neg hsafe] at h
    have hnot : SafeLink.isSafe place target = false := by simpa using hsafe
    cases hres : (⟨d, {}⟩ : Copying).referent (Path.below source place)
        (joinWith [Path.slash] place) target with
    | error f => simp [hres] at h
    | ok found =>
      obtain ⟨here, node⟩ := found
      simp only [hres] at h
      rw [Copying.referent_eq_ok_iff] at hres
      obtain ⟨hget, hlink⟩ := Disk.of_resolve_ok hres
      have hmeets : ∀ here' node', d.locate (Disk.pathOf here) = .ok (here', node') →
          here' = here ∧ node' = node ∧ Meets d source (.entry place .link) here node := by
        intro here' node' hloc
        obtain ⟨rfl, rfl⟩ := Disk.of_locate_pathOf hs hget hlink hloc
        exact ⟨rfl, rfl, .replaced ht hnot hres, by simp [Task.kind], by simp, fun _ _ => hloc,
          by simp⟩
      by_cases hdir : node.isDir = true
      · rw [if_pos hdir] at h
        obtain ⟨rfl, hlist⟩ := Copying.readDir_eq_ok h
        obtain ⟨here', mode, es, hloc, rfl⟩ := Copying.of_list_ok hlist
        obtain ⟨rfl, rfl, hmeets⟩ := hmeets _ _ hloc
        exact .opened hmeets
      · rw [if_neg hdir] at h
        refine provides_of_readFile (fun here' mode data hloc => ?_) h
        obtain ⟨rfl, rfl, hmeets⟩ := hmeets _ _ hloc
        exact hmeets

theorem provides_of_read_inner_link {v : Visit} {n : Name}
    (h : Task.read d source (.inner v n .link) = .ok (node?, .ok more)) :
    Provides d source (.inner v n .link) node? more := by
  rw [Task.read] at h
  cases hloc : d.locate (Path.join v.path n) with
  | error e => simp [hloc] at h
  | ok found =>
    obtain ⟨here, node⟩ := found
    simp only [hloc, List.contains_iff_mem] at h
    by_cases hloop : node.isDir = true ∧ here ∈ v.way
    · rw [if_pos hloop] at h
      cases h
    rw [if_neg hloop] at h
    cases hres : (⟨d, {}⟩ : Copying).referent (Path.join v.path n) (Path.join v.path n)
        ((d.readLink (Path.join v.path n)).toOption.getD []) with
    | error f => simp [hres] at h
    | ok found' =>
      simp only [hres] at h
      rw [Copying.referent_eq_ok_iff] at hres
      have hsame : found' = (here, node) := by
        obtain ⟨here', node'⟩ := found'
        have hgo := Disk.go_of_resolve_ok hres
        rw [Disk.go_of_locate_ok hloc] at hgo
        obtain ⟨rfl, hnode⟩ := Found.mk.inj (Except.ok.inj hgo)
        rw [Option.some.inj hnode]
      have hmeets : Meets d source (.inner v n .link) here node := by
        refine ⟨.inner (fun _ hdir hmem => hloop ⟨hdir, hmem⟩) hloc, by simp [Task.kind], by simp,
          by simp, ?_⟩
        rintro _ _ ⟨rfl, rfl⟩
        exact hsame ▸ hres
      by_cases hdir : node.isDir = true
      · rw [if_pos hdir] at h
        obtain ⟨rfl, hlist⟩ := Copying.readDir_eq_ok h
        obtain ⟨here', mode, es, hloc', rfl⟩ := Copying.of_listBelow_ok hlist
        obtain ⟨rfl, rfl⟩ := Prod.mk.inj (Except.ok.inj (hloc.symm.trans hloc'))
        exact .opened hmeets
      · rw [if_neg hdir] at h
        refine provides_of_readFile (fun here' mode data hloc' => ?_) h
        obtain ⟨rfl, rfl⟩ := Prod.mk.inj (Except.ok.inj (hloc.symm.trans hloc'))
        exact hmeets

theorem provides_of_read (hs : d.root.IsSound) (h : task.read d source = .ok (node?, .ok more)) :
    Provides d source task node? more := by
  cases task with
  | entry place kind =>
    cases kind with
    | directory =>
      obtain ⟨rfl, hlist⟩ := Copying.readDir_eq_ok h
      obtain ⟨here, mode, es, hloc, rfl⟩ := Copying.of_list_ok hlist
      exact .opened ⟨.plain (by simp) hloc, by simp [Node.isDir, Task.kind], by simp, by simp, by simp⟩
    | file =>
      exact provides_of_readFile (fun here mode data hloc =>
        ⟨.plain (by simp) hloc, by simp [Node.isDir, Task.kind], by simp, by simp, by simp⟩) h
    | link => exact provides_of_read_link hs h
    | special =>
      obtain ⟨rfl, hmore⟩ := Prod.mk.inj (Except.ok.inj h)
      obtain rfl := Except.ok.inj hmore
      exact .skipped rfl
  | inner v n kind =>
    cases kind with
    | directory =>
      obtain ⟨rfl, hlist⟩ := Copying.readDir_eq_ok h
      obtain ⟨here, mode, es, hloc, rfl⟩ := Copying.of_listBelow_ok hlist
      exact .opened ⟨.inner (by simp) hloc, by simp [Node.isDir, Task.kind], by simp, by simp,
        by simp⟩
    | link => exact provides_of_read_inner_link h
    | _ =>
      exact provides_of_readFile (fun here mode data hloc =>
        ⟨.inner (by simp) hloc, by simp [Node.isDir, Task.kind], by simp, by simp, by simp⟩) h

theorem read_of_meets_file {here : Place} {mode : Nat} {data : Bytes}
    (h : Meets d source task here (.file mode data))
    (hdata : Disk.contents (.file mode data) = .ok data) :
    task.read d source = .ok (some (.copied mode data), .ok []) := by
  obtain ⟨hreads, hkind, hspecial, hnamed, hresolved⟩ := h
  cases hreads with
  | @plain place here kind node hnot hloc =>
    have hread := Copying.readFile_of_fileAt hloc hdata
    cases kind with
    | directory => simp [Task.kind, Node.isDir] at hkind
    | file => exact hread
    | link => exact absurd rfl hnot
    | special => exact absurd rfl (hspecial place)
  | @replaced place here target node ht hnot hres =>
    rw [Task.read]
    simp only [ht, hnot]
    rw [(Copying.referent_eq_ok_iff (c := ⟨d, {}⟩)).mpr hres]
    exact Copying.readFile_of_fileAt (hnamed _ rfl) hdata
  | @inner v n here kind node hway hloc =>
    have hread := Copying.readFile_of_fileAt hloc hdata
    cases kind with
    | directory => simp [Task.kind, Node.isDir] at hkind
    | link =>
      rw [Task.read]
      simp only [hloc, Node.isDir, Bool.false_eq_true, false_and, if_false]
      rw [(Copying.referent_eq_ok_iff (c := ⟨d, {}⟩)).mpr (hresolved _ _ rfl)]
      exact hread
    | _ => exact hread

theorem read_of_meets_dir {here : Place} {mode : Nat} {es : Entries}
    (h : Meets d source task here (.dir mode es)) :
    task.read d source =
      .ok (some (.dir 0o755 []), .ok (es.map fun e => task.child here e.1 e.2.kind)) := by
  obtain ⟨hreads, hkind, hspecial, hnamed, hresolved⟩ := h
  cases hreads with
  | @plain place here kind node hnot hloc =>
    cases kind with
    | directory => exact Copying.readDir_of_listed (Copying.list_of_locate hloc _) _
    | link => exact absurd rfl hnot
    | _ => simp [Task.kind, Node.isDir] at hkind
  | @replaced place here target node ht hnot hres =>
    rw [Task.read]
    simp only [ht, hnot]
    rw [(Copying.referent_eq_ok_iff (c := ⟨d, {}⟩)).mpr hres]
    exact Copying.readDir_of_listed (Copying.list_of_locate (hnamed _ rfl) _) _
  | @inner v n here kind node hway hloc =>
    cases kind with
    | directory => exact Copying.readDir_of_listed (Copying.listBelow_of_locate hloc) _
    | link =>
      have hnotin := hway rfl rfl
      rw [Task.read]
      simp only [hloc, List.contains_iff_mem, hnotin, and_false, if_false]
      rw [(Copying.referent_eq_ok_iff (c := ⟨d, {}⟩)).mpr (hresolved _ _ rfl)]
      exact Copying.readDir_of_listed (Copying.listBelow_of_locate hloc) _
    | _ => simp [Task.kind, Node.isDir] at hkind

/-- What cannot be listed is a directory all the same. -/
theorem read_unlisted {f : Failure} (h : task.read d source = .ok (node?, .error f)) :
    node? = some (.dir 0o755 []) := by
  have hfile : ∀ path, Copying.readFile d path ≠ .ok (node?, .error f) := by
    intro path h
    obtain ⟨_, _, _, _, hmore⟩ := Copying.readFile_eq_ok h
    cases hmore
  have hdir : ∀ {listed failure}, Copying.readDir listed failure = .ok (node?, .error f) →
      node? = some (.dir 0o755 []) := fun h => (Prod.mk.inj (Except.ok.inj h)).1.symm
  cases task with
  | entry place kind =>
    cases kind with
    | directory => exact hdir h
    | file => exact absurd h (hfile _)
    | special => cases h
    | link =>
      rw [Task.read] at h
      dsimp only at h
      split at h
      · cases h
      split_ifs at h
      · cases h
      split at h
      · cases h
      split_ifs at h
      · exact hdir h
      · exact absurd h (hfile _)
  | inner v n kind =>
    cases kind with
    | directory => exact hdir h
    | link =>
      rw [Task.read] at h
      split at h
      · cases h
      split_ifs at h
      all_goals
        split at h
        · cases h
        · first
          | exact hdir h
          | exact absurd h (hfile _)
    | _ => exact absurd h (hfile _)

theorem read_eq_ok_iff (hs : d.root.IsSound) :
    task.read d source = .ok (node?, .ok more) ↔ Provides d source task node? more := by
  refine ⟨provides_of_read hs, fun h => ?_⟩
  cases h with
  | skipped h =>
    subst h
    rfl
  | kept h ht hsafe =>
    subst h
    rw [Task.read]
    simp only [ht, hsafe, if_true]
  | filled h hdata => exact read_of_meets_file h hdata
  | opened h => exact read_of_meets_dir h

end Task

theorem Provides.unique {d : Disk} {source : Bytes} {task : Task} {node? node?' : Option Node}
    {more more' : List Task} (hs : d.root.IsSound) (h : Provides d source task node? more)
    (h' : Provides d source task node?' more') : node? = node?' ∧ more = more' := by
  have hread := ((Task.read_eq_ok_iff hs).mpr h).symm.trans ((Task.read_eq_ok_iff hs).mpr h')
  obtain ⟨hnode, hmore⟩ := Prod.mk.inj (Except.ok.inj hread)
  exact ⟨hnode, Except.ok.inj hmore⟩

end Depot.Archive
