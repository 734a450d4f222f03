import Depot.Proofs.Archive.Copying
import Depot.Proofs.Files.Apart

/-!
What a copy shows of its source. Wherever the same names lead to a directory of the source and to one
of the copy, each entry of the one is an entry of the other: a kept link, or what the entry leads to.
-/

namespace Depot.Archive

open Files

namespace Task

def path (source : Bytes) : Task → Bytes
  | .entry place _ => Path.below source place
  | .inner v n _ => Path.join v.path n

/-- A task looks for what its path leads to; a link that is kept is only read. -/
def IsFollowed (d : Disk) (source : Bytes) : Task → Prop
  | .entry place .link => ∃ target, d.readLink (Path.below source place) = .ok target ∧
      SafeLink.isSafe place target = false
  | _ => True

/-- The path of a task is that of an entry of the directory at `here`. -/
def StandsIn (d : Disk) (src names here : Place) : Task → Prop
  | .entry _ _ => here = src ++ names
  | .inner v _ _ => d.Opens v.path here

theorem kind_child (task : Task) (here : Place) (n : Name) (kind : Kind) :
    (task.child here n kind).kind = kind := by
  cases task with
  | entry place kind' => cases kind' <;> rfl
  | inner v m kind' => rfl

end Task

namespace Reads

variable {d : Disk} {source : Bytes} {task : Task} {here : Place} {node : Node}

theorem go (h : Reads d source task here node) :
    d.go true (task.path source) = .ok ⟨here, some node⟩ := by
  cases h with
  | plain _ h => exact Disk.go_of_locate_ok h
  | replaced _ _ h => exact Disk.go_of_resolve_ok h
  | inner _ h => exact Disk.go_of_locate_ok h

theorem isFollowed (h : Reads d source task here node) : task.IsFollowed d source := by
  cases h with
  | @plain place here kind node hkind h =>
    cases kind with
    | link => exact absurd rfl hkind
    | _ => trivial
  | replaced ht hnot h => exact ⟨_, ht, hnot⟩
  | inner => trivial

end Reads

/-- A copy looks up nothing in the directory that it fills. -/
structure LooksOutside (d : Disk) (route : Route) (top : Place) : Prop where
  source : Way.Avoids d.root top (d.way route.source)
  tasks : ∀ ts d₁ task rest, Copying.tasks d route.source = .ok ts →
    Copies route (d, ts) (d₁, task :: rest) → task.IsFollowed d₁ route.source →
      Way.Avoids d₁.root top (d₁.way (task.path route.source))

/-- What a copy shows, as the entry of a directory of its own, of an entry of the source. -/
inductive Shown (root copy : Node) (here place : Place) (n : Name) : Node → Prop
  | special (kind : Special) : Shown root copy here place n (.special kind)
  | kept {target : Bytes} (h : copy.get? (place ++ [n]) = some (.link target)) :
    Shown root copy here place n (.link target)
  | file {x : Node} {there : Place} {mode mode' : Nat} {data : Bytes}
    (hleads : Leads root here [n] there) (h : root.get? there = some (.file mode data))
    (hcopy : copy.get? (place ++ [n]) = some (.file mode' data)) : Shown root copy here place n x
  | dir {x : Node} {there : Place} (hleads : Leads root here [n] there)
    (h : root.IsDirAt there) (hcopy : copy.IsDirAt (place ++ [n])) : Shown root copy here place n x

theorem Shown.mono {root copy copy' x : Node} {here place : Place} {n : Name}
    (h : Shown root copy here place n x)
    (hlook : ∀ y, copy.get? (place ++ [n]) = some y →
      copy'.look (place ++ [n]) = copy.look (place ++ [n])) :
    Shown root copy' here place n x := by
  cases h with
  | special kind => exact .special kind
  | kept h =>
    have hlook' := hlook _ h
    rw [(Node.look_eq_some_iff rfl).mpr h] at hlook'
    exact .kept ((Node.look_eq_some_iff rfl).mp hlook')
  | file hleads h hcopy =>
    have hlook' := hlook _ hcopy
    rw [(Node.look_eq_some_iff rfl).mpr hcopy] at hlook'
    exact .file hleads h ((Node.look_eq_some_iff rfl).mp hlook')
  | dir hleads h hcopy =>
    obtain ⟨mode, es, hx⟩ := hcopy
    exact .dir hleads h ((Node.isDirAt_of_look_eq (hlook _ hx)).mpr ⟨mode, es, hx⟩)

/-- A task copies the entry `n` of a directory of the source, to which `names` lead. -/
structure Stands (d : Disk) (src top : Place) (task : Task) (names : Place) (n : Name)
    (here : Place) : Prop where
  target : task.target = names ++ [n]
  leads : Leads d.root src names here
  off : ¬ top <+: here
  entry : (d.root.get? (here ++ [n])).map Node.kind = some task.kind
  standsIn : task.StandsIn d src names here

/-- What holds all along a copy of what it has shown so far: of the directories that it has made, the
tasks that are left are those of the entries that it does not show yet. -/
structure Mirrors (d : Disk) (src top : Place) (d₁ : Disk) (tasks : List Task) : Prop where
  same : d.root.SameOff top d₁.root
  cwd : d₁.cwd = d.cwd
  shown : ∀ names here n x, d₁.root.IsDirAt (top ++ names) → Leads d.root src names here →
    d.root.get? (here ++ [n]) = some x →
      (∃ task ∈ tasks, task.target = names ++ [n]) ∨
        Shown d.root d₁.root here (top ++ names) n x
  stands : ∀ task ∈ tasks, ∃ names n here, Stands d src top task names n here
  links : ∀ place target, d₁.root.get? (top ++ place) = some (.link target) →
    d.root.get? (src ++ place) = some (.link target)

namespace Stands

variable {d d₁ : Disk} {source : Bytes} {src top names here : Place} {n : Name} {task : Task}

theorem exists_entry (h : Stands d src top task names n here) :
    ∃ x, d.root.get? (here ++ [n]) = some x ∧ x.kind = task.kind :=
  Option.map_eq_some_iff.mp h.entry

theorem isDirAt (h : Stands d src top task names n here) : d.root.IsDirAt here := by
  obtain ⟨x, hx, -⟩ := h.exists_entry
  exact .of_append (by simp) hx

/-- The path of a task leads to what its entry leads to. -/
theorem leads_of_go {there : Place} {x : Node} (h : Stands d src top task names n here)
    (hnames : ∀ m ∈ task.target, IsName m) (hsrc : d.Opens source src)
    (hgo : d.go true (task.path source) = .ok ⟨there, some x⟩) : Leads d.root here [n] there := by
  have hin := h.standsIn
  have hdir := h.isDirAt
  cases task with
  | entry place kind =>
    obtain rfl : here = src ++ names := hin
    obtain rfl : place = names ++ [n] := h.target
    exact hsrc.leads hdir (spells_below hsrc.ne_nil hsrc.nul (by simp) hnames) hgo
  | inner v m kind =>
    have hv : d.Opens v.path here := hin
    obtain rfl := (List.append_singleton_inj.mp (h.target : v.place ++ [m] = names ++ [n])).2
    have hm : IsName m := hnames m (List.mem_append_right _ List.mem_cons_self)
    have hdir' : d.root.IsDirAt (here ++ []) := by rwa [List.append_nil]
    have hlast := hv.leads hdir' (spells_join hv.ne_nil hv.nul hm) hgo
    rwa [List.append_nil] at hlast

/-- What is read for a task is what its entry leads to in the source. -/
theorem of_reads {route : Route} {tasks : List Task} {there : Place} {node : Node}
    (h : Stands d src top task names n here) (hm : Mirrors d src top d₁ tasks)
    (hr : Ready d₁.root top task) (htop : d₁.root.IsDirAt top) (hsrc : d.Opens route.source src)
    (hoff : Way.Avoids d₁.root top (d₁.way (task.path route.source)))
    (hreads : Reads d₁ route.source task there node) :
    ¬ top <+: there ∧ Leads d.root here [n] there ∧
      ∃ y, d.root.get? there = some y ∧ y.face = node.face ∧
        d.go true (task.path route.source) = .ok ⟨there, some y⟩ := by
  obtain ⟨hthere, y, hy, hface, hgo⟩ := Disk.go_of_avoids hm.cwd hm.same htop hoff hreads.go
  exact ⟨hthere, h.leads_of_go hr.names hsrc hgo, y, hy, hface, hgo⟩

theorem of_readLink {place : Place} {target : Bytes} {tasks : List Task}
    (h : Stands d src top (.entry place .link) names n here) (hm : Mirrors d src top d₁ tasks)
    (hr : Ready d₁.root top (.entry place .link)) (htop : d₁.root.IsDirAt top)
    (hsrc : d₁.Opens source src) (ht : d₁.readLink (Path.below source place) = .ok target) :
    place = names ++ [n] ∧ here = src ++ names ∧
      d.root.get? (here ++ [n]) = some (.link target) := by
  obtain rfl : here = src ++ names := h.standsIn
  obtain rfl : place = names ++ [n] := h.target
  obtain ⟨there, hgo, hget⟩ := Disk.of_readLink_ok ht
  have hspells : Spells source (names ++ [n]) (Path.below source (names ++ [n])) :=
    spells_below hsrc.ne_nil hsrc.nul (by simp) hr.names
  obtain rfl := hsrc.place_eq ((hm.same.isDirAt h.off).mp h.isDirAt) hspells hgo
  have hnot : ¬ top <+: src ++ names ++ [n] := by
    intro hp
    obtain rfl := (List.prefix_concat_iff.mp hp).resolve_right h.off
    obtain ⟨mode, es, hx⟩ := htop
    rw [hget] at hx
    cases hx
  refine ⟨rfl, rfl, ?_⟩
  rwa [← Node.look_eq_some_iff rfl, hm.same _ hnot, Node.look_eq_some_iff rfl]

end Stands

namespace Mirrors

variable {d d₁ d₂ : Disk} {route : Route} {src top names here there : Place} {n : Name}
  {task : Task} {tasks more : List Task} {node : Node}

/-- A fresh node shows its entry, and its own entries are left to new tasks. -/
theorem put (hu : Underway top route.dest d₁ (task :: tasks))
    (h : Mirrors d src top d₁ (task :: tasks)) (hst : Stands d src top task names n here)
    (hfresh : IsFresh task.target node)
    (hlink : ∀ target, node = .link target →
      d.root.get? (src ++ task.target) = some (.link target))
    (hshown : ∀ x, d.root.get? (here ++ [n]) = some x →
      Shown d.root (d₁.put (top ++ task.target) node).root here (top ++ names) n x)
    (hdir : node.isDir = true → ∀ there m y, Leads d.root src task.target there →
      d.root.get? (there ++ [m]) = some y → ∃ t ∈ more, t.target = task.target ++ [m])
    (hmore : ∀ t ∈ more, ∃ names n here, Stands d src top t names n here) :
    Mirrors d src top (d₁.put (top ++ task.target) node) (more ++ tasks) where
  same := h.same.trans (hu.sameOff_put node)
  cwd := h.cwd
  stands t ht := by
    rcases List.mem_append.mp ht with ht | ht
    · exact hmore t ht
    · exact h.stands t (List.mem_cons_of_mem _ ht)
  links place target ht := by
    by_cases hp : top ++ task.target <+: top ++ place
    · obtain ⟨rest, rfl⟩ := (List.prefix_append_right_inj _).mp hp
      rw [← List.append_assoc, hu.get?_put] at ht
      obtain ⟨rfl, -⟩ := hfresh.isSafe_of_get? ht
      rw [Node.get?_nil] at ht
      rw [List.append_nil]
      exact hlink target (Option.some.inj ht)
    · refine h.links place target ?_
      rwa [← Node.look_eq_some_iff rfl, ← hu.look_put node hp, Node.look_eq_some_iff rfl]
  shown names' here' m x hd hleads hx := by
    by_cases hp : top ++ task.target <+: top ++ names'
    · -- The directory is the new one.
      obtain ⟨rest, rfl⟩ := (List.prefix_append_right_inj _).mp hp
      obtain ⟨mode, es, hnew⟩ := hd
      rw [← List.append_assoc, hu.get?_put] at hnew
      have hrest : rest = [] := by
        by_contra hne
        rw [hfresh.get?_of_ne_nil hne] at hnew
        cases hnew
      subst hrest
      rw [Node.get?_nil] at hnew
      rw [List.append_nil] at hleads ⊢
      obtain ⟨t, ht, htarget⟩ := hdir (by rw [Option.some.inj hnew]; rfl) _ m x hleads hx
      exact .inl ⟨t, List.mem_append_left _ ht, htarget⟩
    · have hd' := (Node.isDirAt_of_look_eq (hu.look_put node hp)).mp hd
      rcases h.shown names' here' m x hd' hleads hx with ⟨t, ht, htarget⟩ | hold
      · rcases List.mem_cons.mp ht with rfl | ht
        · obtain ⟨rfl, rfl⟩ := List.append_singleton_inj.mp (hst.target.symm.trans htarget)
          obtain rfl := hleads.unique hst.leads
          exact .inr (hshown x hx)
        · exact .inl ⟨t, List.mem_append_right _ ht, htarget⟩
      · refine .inr (hold.mono fun y hy => hu.look_put node fun hnew => ?_)
        -- Where something is shown already is no place for a new node.
        obtain ⟨rest, hrest⟩ := hnew
        have hfree := (hu.ready task List.mem_cons_self).free
        rw [← hrest, Node.get?_append, hfree] at hy
        cases hy

theorem skip (h : Mirrors d src top d₁ (task :: tasks)) (hst : Stands d src top task names n here)
    (hkind : task.kind = .special) : Mirrors d src top d₁ tasks where
  same := h.same
  cwd := h.cwd
  stands t ht := h.stands t (List.mem_cons_of_mem _ ht)
  links := h.links
  shown names' here' m x hd hleads hx := by
    rcases h.shown names' here' m x hd hleads hx with ⟨t, ht, htarget⟩ | hold
    · rcases List.mem_cons.mp ht with rfl | ht
      · obtain ⟨rfl, rfl⟩ := List.append_singleton_inj.mp (hst.target.symm.trans htarget)
        obtain rfl := hleads.unique hst.leads
        have hentry := hst.entry
        rw [hx, hkind] at hentry
        cases x with
        | special kind => exact .inr (.special kind)
        | _ => cases hentry
      · exact .inl ⟨t, ht, htarget⟩
    · exact .inr hold

/-- The tasks of the entries of a directory that a task has opened stand in that directory. -/
theorem stands_child (hs : d.root.IsSound) (hst : Stands d src top task names n here)
    (hleads : Leads d.root here [n] there) (hoff : ¬ top <+: there) (hdir : d.root.IsDirAt there)
    {x : Node} (hgo : d.go true (task.path route.source) = .ok ⟨there, some x⟩) {m : Name}
    {kind : Kind} (hm : (d.root.get? (there ++ [m])).map Node.kind = some kind) :
    Stands d src top (task.child there m kind) task.target m there where
  target := task.target_child there m kind
  leads := by
    rw [hst.target]
    exact hst.leads.concat hleads
  off := hoff
  entry := by rw [hm, Task.kind_child]
  standsIn := by
    obtain ⟨mode, es, hx⟩ := hdir
    have hvisit : d.Opens (Disk.pathOf there) there :=
      Disk.opens_pathOf ⟨mode, es, hx⟩ (hs.names hx)
    cases task with
    | entry place kind' =>
      cases kind' with
      | directory =>
        -- The entry is a directory itself, so its name leads straight down.
        obtain ⟨y, hy, hykind⟩ := hst.exists_entry
        have hhere : here = src ++ names := hst.standsIn
        have hplace : place = names ++ [n] := hst.target
        rcases hleads.singleton_cases with heq | ⟨target, ht⟩
        · change there = src ++ place
          rw [heq, hhere, hplace, List.append_assoc]
        · rw [hy] at ht
          rw [Option.some.inj ht] at hykind
          cases hykind
      | _ => exact hvisit
    | inner v m' kind' => exact Disk.opens_of_go hgo

theorem step (hs : d.root.IsSound) (htop : d.root.IsDirAt top) {shown : Node}
    (hsrc : d.go true route.source = .ok ⟨src, some shown⟩)
    (hoff : Way.Avoids d.root top (d.way route.source))
    (hu : Underway top route.dest d₁ (task :: tasks)) (h : Mirrors d src top d₁ (task :: tasks))
    (hout : task.IsFollowed d₁ route.source →
      Way.Avoids d₁.root top (d₁.way (task.path route.source)))
    (he : Effect d₁ route top task d₂ (.ok more)) : Mirrors d src top d₂ (more ++ tasks) := by
  obtain ⟨names, n, here, hst⟩ := h.stands task List.mem_cons_self
  have hr := hu.ready task List.mem_cons_self
  have hself : ∀ node, (d₁.put (top ++ task.target) node).root.get? (top ++ names ++ [n]) =
      some node := by
    intro node
    have hplace : top ++ names ++ [n] = top ++ task.target ++ [] := by simp [hst.target]
    rw [hplace, hu.get?_put, Node.get?_nil]
  cases he with
  | skipped htask =>
    subst htask
    exact h.skip hst rfl
  | @kept place target htask ht hsafe =>
    subst htask
    obtain ⟨rfl, rfl, hget⟩ := hst.of_readLink h hr hu.leads.dir
      (Disk.opens_of_avoids h.cwd h.same htop hoff hsrc) ht
    have hlink : d.root.get? (src ++ (names ++ [n])) = some (.link target) := by
      rwa [← List.append_assoc]
    refine h.put hu hst (.link (hs.targets _ _ hlink) hsafe) ?_ ?_ (by simp [Node.isDir])
      (by simp)
    · rintro _ ⟨⟩
      exact hlink
    · intro x hx
      obtain rfl := Option.some.inj (hget.symm.trans hx)
      exact .kept (hself _)
  | @filled there mode data hreads hdata =>
    obtain ⟨-, hleads, y, hy, hface, -⟩ := hst.of_reads h hr hu.leads.dir (Disk.opens_of_go hsrc)
      (hout hreads.isFollowed) hreads
    obtain rfl : y = .file mode data := by
      cases y with
      | dir mode es => cases hface
      | _ => exact hface
    refine h.put hu hst (.file _ _) (by simp) (fun x _ => ?_) (by simp [Node.isDir]) (by simp)
    exact .file hleads hy (hself _)
  | @opened there mode es hreads =>
    obtain ⟨hthere, hleads, y, hy, hface, hgo⟩ := hst.of_reads h hr hu.leads.dir
      (Disk.opens_of_go hsrc) (hout hreads.isFollowed) hreads
    have hdir : d.root.IsDirAt there := by
      cases y with
      | dir mode' es' => exact ⟨mode', es', hy⟩
      | _ => cases hface
    have hes := hu.sound.entries there mode es hreads.get?
    have hkind := h.same.kind_eq htop hu.leads.dir hthere
    have hfind : ∀ m, d₁.root.get? (there ++ [m]) = Entries.find? m es := by
      intro m
      rw [Node.get?_append, hreads.get?]
      simp
    refine h.put hu hst (.dir _) (by simp) (fun x _ => ?_) (fun _ there' m z hthere' hz => ?_)
      fun t ht => ?_
    · exact .dir hleads hdir ⟨0o755, [], hself _⟩
    · rw [hst.target] at hthere'
      obtain rfl := hthere'.unique (hst.leads.concat hleads)
      have hk := hkind m
      rw [hz, hfind] at hk
      obtain ⟨z', hz', -⟩ := Option.map_eq_some_iff.mp hk.symm
      exact ⟨_, List.mem_map_of_mem (Entries.mem_of_find? hz'), task.target_child there m _⟩
    · obtain ⟨e, he, rfl⟩ := List.mem_map.mp ht
      refine ⟨task.target, e.1, there, stands_child hs hst hleads hthere hdir hgo ?_⟩
      rw [hkind, hfind, hes.find?_of_mem he]
      rfl

theorem of_tasks {mode mode' : Nat} {es : Entries} (hs : d.root.IsSound)
    (hempty : d.root.get? top = some (.dir mode [])) (hoff : ¬ top <+: src)
    (hsrc : d.locate route.source = .ok (src, .dir mode' es))
    (ht : Copying.tasks d route.source = .ok tasks) : Mirrors d src top d tasks := by
  have hget := Disk.get?_of_locate_ok hsrc
  have htasks : tasks = es.map fun e => .entry [e.1] e.2.kind :=
    Except.ok.inj (ht.symm.trans (Copying.tasks_of_locate hsrc))
  have hes := hs.entries src mode' es hget
  have hfind : ∀ m, d.root.get? (src ++ [m]) = Entries.find? m es := by
    intro m
    rw [Node.get?_append, hget]
    simp
  have hbelow : ∀ place x, d.root.get? (top ++ place) = some x → place = [] := by
    intro place x hx
    by_contra hne
    obtain ⟨m, rest, rfl⟩ := List.exists_cons_of_ne_nil hne
    rw [Node.get?_append, hempty] at hx
    cases hx
  refine ⟨.refl, rfl, fun names here m x hd hleads hx => .inl ?_, fun t ht => ?_,
    fun place target hlink => ?_⟩
  · obtain ⟨mode'', es'', hd⟩ := hd
    obtain rfl := hbelow names _ hd
    obtain rfl := hleads.eq_of_nil
    rw [hfind] at hx
    exact ⟨_, htasks ▸ List.mem_map_of_mem (Entries.mem_of_find? hx), rfl⟩
  · rw [htasks] at ht
    obtain ⟨e, he, rfl⟩ := List.mem_map.mp ht
    refine ⟨[], e.1, src, rfl, .nil, hoff, ?_, (List.append_nil src).symm⟩
    rw [hfind, hes.find?_of_mem he]
    rfl
  · obtain rfl := hbelow place _ hlink
    rw [List.append_nil, hempty] at hlink
    cases hlink

theorem of_copies {mode mode' : Nat} {es : Entries} (hs : d.root.IsSound)
    (hout : LooksOutside d route top) (hdest : d.locate route.dest = .ok (top, .dir mode []))
    (hsrc : d.locate route.source = .ok (src, .dir mode' es))
    {ts : List Task} (ht : Copying.tasks d route.source = .ok ts) {tasks' : List Task}
    (hc : Copies route (d, ts) (d₂, tasks')) :
    Underway top route.dest d₂ tasks' ∧ Mirrors d src top d₂ tasks' := by
  have hempty := Disk.get?_of_locate_ok hdest
  have hgo := Disk.go_of_locate_ok hsrc
  obtain ⟨links, hsteps⟩ := Disk.steps_of_go hgo
  generalize hs' : (d₂, tasks') = s' at hc
  induction hc generalizing d₂ tasks' with
  | refl =>
    cases hs'
    exact ⟨.of_tasks hs (Disk.leadsTo_of_locate hdest) hempty ht,
      .of_tasks hs hempty (hout.source _ hsteps) hsrc ht⟩
  | @tail s₁ s₂ hfirst hstep ih =>
    cases hstep with
    | @take c c' task more rest htake =>
      cases hs'
      obtain ⟨hu, hm⟩ := ih rfl
      have heffect := Copying.effect_of_take hu.sound hu.leads
        (hu.ready task List.mem_cons_self) htake
      exact ⟨(hu.step heffect).1, hm.step hs ⟨mode, [], hempty⟩ hgo hout.source hu
        (hout.tasks ts c.disk task rest ht hfirst) heffect⟩

end Mirrors

end Depot.Archive
