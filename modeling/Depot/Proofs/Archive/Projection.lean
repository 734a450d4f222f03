import Depot.Proofs.Archive.Finiteness
import Depot.Proofs.Archive.Settled
import Depot.Proofs.Archive.View

/-!
Copies of copies. A tree that a copy takes over as it is, with no link to replace and nothing to leave
out, comes out node by node the same. What a copy leaves is such a tree; so copying is a projection,
and the hash of a tree that needs no change is the hash of its copy.
-/

namespace Depot.Archive

open Files

/-- A tree and a directory of which neither holds the other. -/
structure IsApart (src top : Place) : Prop where
  above : ¬ src <+: top
  below : ¬ top <+: src

theorem IsApart.not_prefix_append {src top : Place} (h : IsApart src top) (place : Place) :
    ¬ top ++ place <+: src ∧ ¬ src <+: top ++ place := by
  refine ⟨fun hp => h.below ((List.prefix_append _ _).trans hp), fun hp => ?_⟩
  rcases List.prefix_or_prefix_of_prefix hp (List.prefix_append top place) with hp | hp
  · exact h.above hp
  · exact h.below hp

/-! ### What every task keeps up -/

namespace Copying

/-- Carrying out tasks leads from states of one sort to states of the same sort. -/
def Keeps (good : Copying → List Task → Prop) (carryOut : List Task → Progress → Progress) : Prop :=
  ∀ tasks rest p, good p.copying (tasks ++ rest) → (carryOut tasks p).stop = none →
    good (carryOut tasks p).copying rest

variable {route : Route} {good : Copying → List Task → Prop}
  (hstep : ∀ (c c' : Copying) (task : Task) (more rest : List Task), good c (task :: rest) →
    c.take route task = (c', .ok more) → good c' (more ++ rest))
include hstep

theorem keeps_takeEach {below : List Task → Progress → Progress} (hchain : IsChain route below)
    (hbelow : Keeps good below) : Keeps good (takeEach route below) := by
  intro tasks rest
  induction tasks with
  | nil => exact fun p hp _ => hp
  | cons task tasks ih =>
    intro p hp hstop
    have hgo := (isChain_takeEach hchain _ _ hstop).1
    rw [takeEach, hgo] at hstop ⊢
    cases htake : p.copying.take route task with
    | mk c r =>
    cases r with
    | error f =>
      simp only [htake] at hstop
      cases hstop
    | ok more =>
      simp only [htake] at hstop ⊢
      have hmore := (isChain_takeEach hchain _ _ hstop).1
      have hfirst := hstep _ _ _ _ _ hp htake
      exact ih _ (hbelow more (tasks ++ rest) _ hfirst hmore) hstop

theorem keeps_takeAll (levels : Nat) : Keeps good (takeAll route levels) := by
  induction levels with
  | zero =>
    intro tasks rest p hp hstop
    cases tasks with
    | nil => exact hp
    | cons task tasks => cases hstop
  | succ levels ih => exact keeps_takeEach hstep (isChain_takeAll route levels) ih

end Copying

theorem keeps_replicate {good : Copying → List Task → Prop} {d d' : Disk} {source dest : Bytes}
    {stats : Stats} {ts : List Task}
    (hstep : ∀ (c c' : Copying) (task : Task) (more rest : List Task), good c (task :: rest) →
      c.take ⟨source, dest⟩ task = (c', .ok more) → good c' (more ++ rest))
    (ht : Copying.tasks d source = .ok ts) (hstart : good ⟨d, {}⟩ ts)
    (h : replicate d source dest = (d', .ok stats)) : good ⟨d', stats⟩ [] := by
  obtain ⟨hstop, hcopying⟩ :=
    (@replicate_eq_ok_iff_finish d ⟨source, dest⟩ ts ht d' stats).mp h
  rw [← hcopying]
  refine Copying.keeps_takeAll hstep Disk.pathLimit ts [] ⟨⟨d, {}⟩, 0, none⟩ ?_ hstop
  rwa [List.append_nil]

/-! ### Entries of a plain tree -/

section
variable {d : Disk} {route : Route} {src : Place} {mode : Nat} {es : Entries}
  (hs : d.root.IsSound) (hsrc : d.locate route.source = .ok (src, .dir mode es))
  {place : Place} {x : Node} (hne : place ≠ []) (hx : (Node.dir mode es).get? place = some x)
  (hplain : IsPlain place x)
include hs hsrc hne hx hplain

/-- What a task about a plain entry provides. -/
theorem provides_entry_iff {node? : Option Node} {more : List Task} :
    Provides d route.source (.entry place x.kind) node? more ↔
      Disk.IsShort (Path.below route.source place) place ∧ IsReadable x ∧ node? = some x.kept ∧
        more = x.children.map fun e => .entry (place ++ [e.1]) e.2.kind := by
  have hlocate := fun {here : Place} {y : Node} (hlink : x.kind ≠ .link) =>
    @locate_entry_eq_ok_iff d route src mode es hs hsrc place here x y hne hx hlink
  have hread := fun {target : Bytes} =>
    @readLink_entry_eq_ok_iff d route src mode es hs hsrc place x target hne hx
  constructor
  · intro h
    have hfound : ∀ {here : Place} {y : Node}, Meets d route.source (.entry place x.kind) here y →
        Disk.IsShort (Path.below route.source place) place ∧ y = x ∧ x.kind ≠ .link := by
      intro here y hm
      have hreads := hm.reads
      generalize hkind : x.kind = kind at hreads
      cases hreads with
      | plain hlink hloc =>
        obtain ⟨hshort, -, rfl⟩ := (hlocate (hkind ▸ hlink)).mp hloc
        exact ⟨hshort, rfl, hkind ▸ hlink⟩
      | replaced ht hnot =>
        obtain ⟨-, rfl⟩ := hread.mp ht
        rw [IsPlain, hnot] at hplain
        cases hplain
    cases h with
    | @skipped place' htask =>
      obtain ⟨rfl, hkind⟩ := Task.entry.inj htask
      cases x with
      | special => exact hplain.elim
      | _ => cases hkind
    | @kept place' target htask ht hsafe =>
      obtain ⟨rfl, -⟩ := Task.entry.inj htask
      obtain ⟨hshort, rfl⟩ := hread.mp ht
      exact ⟨hshort, trivial, rfl, rfl⟩
    | @filled here mode' data hm hdata =>
      obtain ⟨hshort, rfl, -⟩ := hfound hm
      rw [Disk.contents] at hdata
      split_ifs at hdata with hmode
      exact ⟨hshort, hmode, rfl, rfl⟩
    | @opened here mode' es' hm =>
      obtain ⟨hshort, rfl, -⟩ := hfound hm
      exact ⟨hshort, trivial, rfl, rfl⟩
  · rintro ⟨hshort, hreadable, rfl, rfl⟩
    have hmeets : x.kind ≠ .link → x.kind ≠ .special →
        Meets d route.source (.entry place x.kind) (src ++ place) x := by
      intro hlink hspecial
      refine ⟨.plain hlink ((hlocate hlink).mpr ⟨hshort, rfl, rfl⟩), fun _ => ?_,
        fun _ htask => hspecial (Task.entry.inj htask).2,
        fun _ htask => absurd (Task.entry.inj htask).2 hlink, by simp⟩
      cases x <;> simp [Node.isDir, Node.kind, Task.kind]
    cases x with
    | special => exact hplain.elim
    | link target => exact .kept rfl (hread.mpr ⟨hshort, rfl⟩) hplain
    | file mode' data =>
      have hdata : Disk.contents (.file mode' data) = .ok data := by
        rw [Disk.contents, if_neg hreadable]
      exact .filled (hmeets (by simp [Node.kind]) (by simp [Node.kind])) hdata
    | dir mode' es' => exact .opened (hmeets (by simp [Node.kind]) (by simp [Node.kind]))

end

/-- What a copy needs to take over a node of its tree. -/
structure CanRepeat (route : Route) (place : Place) (x : Node) : Prop where
  readable : IsReadable x
  source : Disk.IsShort (Path.below route.source place) place
  dest : Disk.IsShort (Path.below route.dest place) place

/-- What holds all along a copy of a plain tree: all that was made is a copy of what is at the same
place of the tree, and what was not made yet is left to one of the tasks. -/
structure Repeats (route : Route) (src top : Place) (tree : Node) (d : Disk) (tasks : List Task) :
    Prop where
  underway : Underway top route.dest d tasks
  source : d.locate route.source = .ok (src, tree)
  entries : ∀ task ∈ tasks, ∃ place x, place ≠ [] ∧ tree.get? place = some x ∧
    task = .entry place x.kind
  made : ∀ place node, place ≠ [] → d.root.get? (top ++ place) = some node →
    ∃ x, tree.get? place = some x ∧ node.face = x.kept ∧ CanRepeat route place x
  left : ∀ place x, place ≠ [] → tree.get? place = some x →
    (∃ node, d.root.get? (top ++ place) = some node) ∨ ∃ task ∈ tasks, task.target <+: place

namespace Repeats

variable {route : Route} {src top : Place} {mode : Nat} {es : Entries} {d : Disk}
  {tasks rest : List Task}

theorem of_tasks {mode' : Nat} (hs : d.root.IsSound)
    (hdest : d.locate route.dest = .ok (top, .dir mode' []))
    (hsrc : d.locate route.source = .ok (src, .dir mode es)) :
    Repeats route src top (.dir mode es) d (es.map fun e => .entry [e.1] e.2.kind) where
  underway := .of_tasks hs (Disk.leadsTo_of_locate hdest) (Disk.get?_of_locate_ok hdest)
    (Copying.tasks_of_locate hsrc)
  source := hsrc
  entries task htask := by
    obtain ⟨e, he, rfl⟩ := List.mem_map.mp htask
    exact ⟨[e.1], e.2, by simp, get?_child hs hsrc (Node.get?_nil _) he, rfl⟩
  made place node hne hx := by
    obtain ⟨n, below, rfl⟩ := List.exists_cons_of_ne_nil hne
    rw [Node.get?_append, Disk.get?_of_locate_ok hdest] at hx
    cases hx
  left place x hne hx := by
    obtain ⟨n, below, rfl⟩ := List.exists_cons_of_ne_nil hne
    obtain ⟨child, hchild, -⟩ := Option.bind_eq_some_iff.mp hx
    exact .inr ⟨_, List.mem_map_of_mem (Entries.mem_of_find? hchild), List.prefix_append [n] below⟩

variable {c c' : Copying} {more : List Task}

/-- A task of a plain tree is carried out exactly if its node can be taken over. -/
theorem take_eq_ok_iff {place : Place} {x : Node}
    (h : Repeats route src top (.dir mode es) c.disk (.entry place x.kind :: rest))
    (hne : place ≠ []) (hx : (Node.dir mode es).get? place = some x) (hplain : IsPlain place x) :
    c.take route (.entry place x.kind) = (c', .ok more) ↔
      CanRepeat route place x ∧
        more = (x.children.map fun e => .entry (place ++ [e.1]) e.2.kind) ∧
        c' = c.after top ⟨.entry place x.kind, some x.kept,
          (Task.entry place x.kind).count (some x.kept)⟩ := by
  have hu := h.underway
  have hspelling : Task.spelling route.dest (.entry place x.kind) x.kept =
      Path.below route.dest place := by
    cases x with
    | dir => rfl
    | _ => exact spelling_of_not_dir rfl _
  rw [Copying.take_eq_ok_iff hu.sound hu.leads (hu.ready _ List.mem_cons_self)]
  constructor
  · rintro ⟨node?, hprovides, hshort, rfl⟩
    obtain ⟨hsource, hread, rfl, rfl⟩ :=
      (provides_entry_iff hu.sound h.source hne hx hplain).mp hprovides
    have hdest := hshort _ rfl
    rw [hspelling] at hdest
    exact ⟨⟨hread, hsource, hdest⟩, rfl, rfl⟩
  · rintro ⟨⟨hread, hsource, hdest⟩, rfl, rfl⟩
    refine ⟨_, (provides_entry_iff hu.sound h.source hne hx hplain).mpr
      ⟨hsource, hread, rfl, rfl⟩, ?_, rfl⟩
    rintro _ ⟨⟩
    rwa [hspelling]

theorem step {task : Task} (hapart : IsApart src top)
    (hplain : ∀ place x, (Node.dir mode es).get? place = some x → place ≠ [] → IsPlain place x)
    (h : Repeats route src top (.dir mode es) c.disk (task :: rest))
    (htake : c.take route task = (c', .ok more)) :
    Repeats route src top (.dir mode es) c'.disk (more ++ rest) := by
  obtain ⟨place, x, hne, hx, rfl⟩ := h.entries task List.mem_cons_self
  have hu := h.underway
  have hr := hu.ready _ List.mem_cons_self
  have hu' := (hu.step (Copying.effect_of_take hu.sound hu.leads hr htake)).1
  obtain ⟨hcwd, hpersists⟩ := Copying.persistsIn_take hu
  rw [htake] at hcwd hpersists
  obtain ⟨hcan, rfl, rfl⟩ := (h.take_eq_ok_iff hne hx (hplain _ _ hx hne)).mp htake
  have hempty : x.kept.children = [] := by cases x <;> rfl
  refine ⟨hu', ?_, fun task htask => ?_, fun place' node hne' hnode => ?_,
    fun place' x' hne' hx' => ?_⟩
  · obtain ⟨hnot, hnot'⟩ := hapart.not_prefix_append place
    have hsame : (c.disk.put (top ++ place) x.kept).root.get? src = c.disk.root.get? src :=
      Disk.get?_alter_of_disjoint hu.sound (by simp [hne]) hnot hnot' _
    obtain ⟨y, hgo⟩ := Disk.go_of_persists hcwd hpersists ⟨_, Disk.go_of_locate_ok h.source⟩
    have hy := (Disk.ends_of_go_ok hgo).2.2.get?.trans hsame
    obtain rfl := Option.some.inj (hy.trans (Disk.get?_of_locate_ok h.source))
    exact Disk.locate_eq_ok_iff.mpr ⟨(Disk.locate_eq_ok_iff.mp h.source).1, hgo⟩
  · rcases List.mem_append.mp htask with htask | htask
    · obtain ⟨e, he, rfl⟩ := List.mem_map.mp htask
      cases x with
      | dir mode' children => exact ⟨_, e.2, by simp, get?_child hu.sound h.source hx he, rfl⟩
      | _ => cases he
    · exact h.entries task (List.mem_cons_of_mem _ htask)
  · rcases hu.get?_put_cases hempty hnode with ⟨rfl, rfl⟩ | ⟨y, hy, hface⟩
    · exact ⟨x, hx, by cases x <;> rfl, hcan⟩
    · obtain ⟨z, hz, hkept, hcan'⟩ := h.made place' y hne' hy
      exact ⟨z, hz, hface.trans hkept, hcan'⟩
  · have hstays : ∀ {y : Node}, c.disk.root.get? (top ++ place') = some y →
        ∃ node, (c.disk.put (top ++ place) x.kept).root.get? (top ++ place') = some node := by
      intro y hy
      have hlook := hpersists _ _ hy
      rw [Node.look, Node.look, hy, Option.map_some] at hlook
      obtain ⟨node, hnode, -⟩ := Option.map_eq_some_iff.mp hlook
      exact ⟨node, hnode⟩
    rcases h.left place' x' hne' hx' with ⟨y, hy⟩ | ⟨task, htask, hp⟩
    · exact .inl (hstays hy)
    rcases List.mem_cons.mp htask with rfl | htask
    · -- The entry of the task was made, and the others below it are left to its entries.
      obtain ⟨below, rfl⟩ : ∃ below, place ++ below = place' := hp
      cases below with
      | nil =>
        have hput := hu.get?_put x.kept []
        rw [List.append_assoc] at hput
        exact .inl ⟨x.kept, hput.trans (Node.get?_nil _)⟩
      | cons n below =>
        rw [Node.get?_append, hx, Option.bind_some, Node.get?_cons] at hx'
        obtain ⟨child, hchild, -⟩ := Option.bind_eq_some_iff.mp hx'
        refine .inr ⟨_, List.mem_append_left _ (List.mem_map_of_mem (Entries.mem_of_find? hchild)), ?_⟩
        exact (List.prefix_append_right_inj place).mpr (List.prefix_append [n] below)
    · exact .inr ⟨task, List.mem_append_right _ htask, hp⟩

theorem copies (hapart : IsApart src top)
    (hplain : ∀ place x, (Node.dir mode es).get? place = some x → place ≠ [] → IsPlain place x)
    {d' : Disk} {tasks' : List Task} (h : Repeats route src top (.dir mode es) d tasks)
    (hc : Copies route (d, tasks) (d', tasks')) :
    Repeats route src top (.dir mode es) d' tasks' := by
  generalize hs : (d, tasks) = s at hc
  generalize hs' : (d', tasks') = s' at hc
  induction hc generalizing d' tasks' with
  | refl =>
    obtain ⟨rfl, rfl⟩ := Prod.mk.inj (hs.trans hs'.symm)
    exact h
  | @tail s₁ s₂ _ hstep ih =>
    subst hs
    cases hstep with
    | @take c c' task more rest htake =>
      obtain ⟨rfl, rfl⟩ := Prod.mk.inj hs'
      exact (ih rfl).step hapart hplain htake

end Repeats

section
variable {d : Disk} {source dest : Bytes} {src top : Place} {mode mode' : Nat} {es : Entries}
  (hs : d.root.IsSound) (hsrc : d.locate source = .ok (src, .dir mode es))
  (hdest : d.locate dest = .ok (top, .dir mode' [])) (hapart : IsApart src top)
  (hplain : ∀ e ∈ Node.beneathAll es, IsPlain e.1 e.2)
include hs hsrc hdest hapart hplain

omit hapart hdest in
theorem isPlain_of_get? {place : Place} {x : Node} (hx : (Node.dir mode es).get? place = some x)
    (hne : place ≠ []) : IsPlain place x :=
  hplain (place, x) ((Node.mem_beneath_iff (hs.get? (Disk.get?_of_locate_ok hsrc))).mpr ⟨hne, hx⟩)

theorem exists_replicate_eq_ok
    (hcan : ∀ e ∈ Node.beneathAll es, CanRepeat ⟨source, dest⟩ e.1 e.2) :
    ∃ d' stats, replicate d source dest = (d', .ok stats) := by
  have hstart : Repeats ⟨source, dest⟩ src top (.dir mode es) d _ := .of_tasks hs hdest hsrc
  have hplain' := fun place x => @isPlain_of_get? d source src mode es hs hsrc hplain place x
  have hts := Copying.tasks_of_locate hsrc
  have hends := replicate_finishes source hs hdest
  rw [← Prod.mk.eta (p := replicate d source dest)]
  generalize (replicate d source dest).1 = d' at hends
  generalize (replicate d source dest).2 = r at hends
  cases hends with
  | unlisted ht => cases hts.symm.trans ht
  | done stats => exact ⟨_, stats, rfl⟩
  | failed ht hbreaks =>
    obtain rfl := Except.ok.inj (hts.symm.trans ht)
    obtain ⟨c, task, rest, hc, htake⟩ := hbreaks
    have h := hstart.copies hapart hplain' hc
    obtain ⟨place, x, hne, hx, rfl⟩ := h.entries task List.mem_cons_self
    have hmem := (Node.mem_beneath_iff (hs.get? (Disk.get?_of_locate_ok hsrc))).mpr ⟨hne, hx⟩
    cases htake.symm.trans ((h.take_eq_ok_iff hne hx (hplain' _ _ hx hne)).mpr
      ⟨hcan _ hmem, rfl, rfl⟩)

/-- The copy of a plain tree is the tree with the modes of copies, and no link was replaced. -/
theorem told_of_replicate {d' : Disk} {stats : Stats} {made : Entries}
    (h : replicate d source dest = (d', .ok stats))
    (hmade : d'.root.get? top = some (.dir mode' made)) :
    stats.replaced = 0 ∧
      Node.told Node.kept (.dir mode' made) = Node.told Node.kept (.dir mode es) ∧
      ∀ e ∈ Node.beneathAll es, CanRepeat ⟨source, dest⟩ e.1 e.2 := by
  have hstart : Repeats ⟨source, dest⟩ src top (.dir mode es) d _ := .of_tasks hs hdest hsrc
  have hplain' := fun place x => @isPlain_of_get? d source src mode es hs hsrc hplain place x
  have hsound := hs.get? (Disk.get?_of_locate_ok hsrc)
  obtain ⟨hend, hreplaced⟩ : Repeats ⟨source, dest⟩ src top (.dir mode es) d' [] ∧
      stats.replaced = 0 := by
    refine @keeps_replicate (fun c tasks => Repeats ⟨source, dest⟩ src top (.dir mode es) c.disk tasks ∧
      c.stats.replaced = 0) d d' source dest stats _ ?_ (Copying.tasks_of_locate hsrc)
      ⟨hstart, rfl⟩ h
    rintro c c' task more rest ⟨hc, hzero⟩ htake
    refine ⟨hc.step hapart hplain' htake, ?_⟩
    obtain ⟨place, x, hne, hx, rfl⟩ := hc.entries task List.mem_cons_self
    obtain ⟨-, -, rfl⟩ := (hc.take_eq_ok_iff hne hx (hplain' _ _ hx hne)).mp htake
    have htally : ((Task.entry place x.kind).tally x.kept).replaced = 0 := by cases x <;> rfl
    show c.stats.replaced + ((Task.entry place x.kind).tally x.kept).replaced = 0
    rw [hzero, htally]
  have hget : ∀ place, (Node.dir mode' made).get? place = d'.root.get? (top ++ place) := by
    intro place
    rw [Node.get?_append, hmade, Option.bind_some]
  have hall : ∀ place x, place ≠ [] → (Node.dir mode es).get? place = some x →
      ∃ node, d'.root.get? (top ++ place) = some node ∧ node.kept = x.kept ∧
        CanRepeat ⟨source, dest⟩ place x := by
    intro place x hne hx
    rcases hend.left place x hne hx with ⟨node, hnode⟩ | ⟨task, htask, -⟩
    · obtain ⟨y, hy, hkept, hcan⟩ := hend.made place node hne hnode
      obtain rfl := Option.some.inj (hx.symm.trans hy)
      exact ⟨node, hnode, by rw [← Node.kept_face, hkept, Node.kept_kept], hcan⟩
    · cases htask
  refine ⟨hreplaced, ?_, fun e he => ?_⟩
  · refine Node.told_eq Node.kept (hend.underway.sound.get? hmade) hsound fun place => ?_
    by_cases hne : place = []
    · subst hne
      rfl
    cases hx : (Node.dir mode es).get? place with
    | some x =>
      obtain ⟨node, hnode, hkept, -⟩ := hall place x hne hx
      rw [hget, hnode, Option.map_some, Option.map_some, hkept]
    | none =>
      cases hnode : (Node.dir mode' made).get? place with
      | none => rfl
      | some node =>
        obtain ⟨x, hx', -⟩ := hend.made place node hne ((hget place).symm.trans hnode)
        cases hx.symm.trans hx'
  · obtain ⟨hne, hx⟩ := (@Node.mem_beneath_iff _ hsound e.1 e.2).mp he
    obtain ⟨-, -, -, hcan⟩ := hall e.1 e.2 hne hx
    exact hcan

end

/-! ### What a copy leaves is its own copy -/

section
variable {d d' : Disk} {dest : Bytes} {top : Place} {mode : Nat} {made : Entries}
  (hs : d.root.IsSound) (hloc : d.locate dest = .ok (top, .dir mode made))
  (hsettles : Settles d top dest)
include hs hloc hsettles

theorem settled_of_mem {e : Place × Node} (he : e ∈ Node.beneathAll made) :
    IsSettled e.1 e.2 ∧ Disk.IsShort (Path.below dest e.1) e.1 := by
  have hget := Disk.get?_of_locate_ok hloc
  obtain ⟨hne, hx⟩ := (@Node.mem_beneath_iff _ (hs.get? hget) e.1 e.2).mp he
  refine hsettles e.1 e.2 hne ?_
  rw [Node.get?_append, hget]
  exact hx

theorem fits_made : Fingerprint.Fits dest made := fun _ he =>
  (settled_of_mem hs hloc hsettles he).2.path

/-- The nodes that were made can be taken over if their new paths are short. -/
theorem canRepeat_iff (again : Bytes) :
    (∀ e ∈ Node.beneathAll made, CanRepeat ⟨dest, again⟩ e.1 e.2) ↔ Fingerprint.Fits again made := by
  refine ⟨fun h e he => (h e he).dest.path, fun hagain e he => ?_⟩
  obtain ⟨hsettled, hshort⟩ := settled_of_mem hs hloc hsettles he
  exact ⟨hsettled.readable, hshort, ⟨hagain e he, hshort.names⟩⟩

/-- What was made is copied once more exactly if no new path is too long. -/
theorem exists_replicate_iff {again : Bytes} {top₂ : Place} {mode₂ : Nat}
    (hagain : d.locate again = .ok (top₂, .dir mode₂ [])) (hapart : IsApart top top₂) :
    (∃ d₂ stats₂, replicate d dest again = (d₂, .ok stats₂)) ↔ Fingerprint.Fits again made := by
  have hplain : ∀ e ∈ Node.beneathAll made, IsPlain e.1 e.2 := fun e he =>
    (settled_of_mem hs hloc hsettles he).1.plain
  rw [← canRepeat_iff hs hloc hsettles]
  constructor
  · rintro ⟨d₂, stats₂, h₂⟩
    obtain ⟨-, made₂, hloc₂, -⟩ := exists_made hs hagain h₂
    exact (told_of_replicate hs hloc hagain hapart hplain h₂ (Disk.get?_of_locate_ok hloc₂)).2.2
  · exact exists_replicate_eq_ok hs hloc hagain hapart hplain

end

/-- Settled trees whose copies are the same are the same. -/
theorem entries_eq_of_told {a b : Entries} {mode mode' : Nat} (ha : (Node.dir mode a).IsSound)
    (hb : (Node.dir mode' b).IsSound)
    (hsettled : ∀ e ∈ Node.beneathAll a, IsSettled e.1 e.2)
    (hsettled' : ∀ e ∈ Node.beneathAll b, IsSettled e.1 e.2)
    (htold : Node.told Node.kept (.dir mode a) = Node.told Node.kept (.dir mode' b)) : a = b := by
  have hface : ∀ {m : Nat} {es : Entries}, (Node.dir m es).IsSound →
      (∀ e ∈ Node.beneathAll es, IsSettled e.1 e.2) → ∀ place, place ≠ [] →
        ((Node.dir m es).get? place).map Node.kept = (Node.dir m es).look place := by
    intro m es hes h place hne
    rw [Node.look]
    cases hx : (Node.dir m es).get? place with
    | none => rfl
    | some x => exact congrArg some (h (place, x) ((Node.mem_beneath_iff hes).mpr ⟨hne, hx⟩)).kept
  have heq : Node.dir 0 a = Node.dir 0 b := by
    refine Node.eq_of_look_eq ha.children hb.children fun place => ?_
    cases place with
    | nil => rfl
    | cons n place =>
      have hmap := Node.get?_map_eq_of_told_eq ha hb htold (List.cons_ne_nil n place)
      rw [hface ha hsettled _ (by simp), hface hb hsettled' _ (by simp)] at hmap
      exact hmap
  exact (Node.dir.inj heq).2

theorem replicate_of_not_dir {d d' : Disk} {source dest : Bytes} {stats : Stats} {node : Node}
    (hnode : d.stat source = .ok node) (hdir : node.isDir = false)
    (h : replicate d source dest = (d', .ok stats)) : d' = d := by
  have hts : Copying.tasks d source = .ok [] := by
    rw [Copying.tasks, hnode]
    simp [hdir]
  obtain ⟨ts, hts', hc⟩ := copies_of_replicate h
  obtain rfl := Except.ok.inj (hts.symm.trans hts')
  rcases Relation.ReflTransGen.cases_head hc with heq | ⟨v, hstep, -⟩
  · exact (Prod.mk.inj heq).1.symm
  · generalize hstart : (d, ([] : List Task)) = start at hstep
    cases hstep
    cases hstart

/-- Copying is a projection. Whatever its source, a copy that goes through leaves only directories,
files and links that are safe where they are. It has a hash exactly if all names are texts. One more
copy, to a directory apart, goes through exactly if no path is too long there; it replaces no link,
makes the same once more and has the same hash. And if there was nothing to replace or to leave out in
the source, its hash is that of the copy. -/
theorem replicate_projects {d d' : Disk} {source dest : Bytes} {stats : Stats} {top : Place}
    {mode : Nat} (hs : d.root.IsSound) (hdest : d.locate dest = .ok (top, .dir mode []))
    (h : replicate d source dest = (d', .ok stats)) :
    ∃ made, d'.locate dest = .ok (top, .dir mode made) ∧
      (∀ e ∈ Node.beneathAll made, IsPlain e.1 e.2) ∧
      ((∃ hash, Fingerprint.ofTree d' dest = .ok hash) ↔
        ∀ e ∈ Node.beneathAll made, ∀ n ∈ e.1, Utf8.IsValid n) ∧
      (∀ again top₂ mode₂, d'.locate again = .ok (top₂, .dir mode₂ []) → IsApart top top₂ →
        ((∃ d₂ stats₂, replicate d' dest again = (d₂, .ok stats₂)) ↔
          Fingerprint.Fits again made) ∧
        ∀ d₂ stats₂, replicate d' dest again = (d₂, .ok stats₂) →
          stats₂.replaced = 0 ∧ d₂.locate again = .ok (top₂, .dir mode₂ made) ∧
            Fingerprint.ofTree d₂ again = Fingerprint.ofTree d' dest) ∧
      ∀ src node, d.locate source = .ok (src, node) → IsApart src top →
        (∀ e ∈ node.beneath, IsPlain e.1 e.2) →
          Fingerprint.ofTree d' dest = Fingerprint.ofTree d source := by
  obtain ⟨hs', made, hloc, hsettles⟩ := exists_made hs hdest h
  have hmade := Disk.get?_of_locate_ok hloc
  have hsettled := fun e he => (@settled_of_mem d' dest top mode made hs' hloc hsettles e he).1
  have hstat : d'.stat dest = .ok (.dir mode made) := by
    rw [Disk.stat, hloc]
    rfl
  have hplain : ∀ e ∈ Node.beneathAll made, IsPlain e.1 e.2 := fun e he => (hsettled e he).plain
  have hread : ∀ e ∈ Node.beneathAll made, IsPlain e.1 e.2 ∧ IsReadable e.2 := fun e he =>
    ⟨hplain e he, (hsettled e he).readable⟩
  have hfits := fits_made hs' hloc hsettles
  refine ⟨made, hloc, hplain, ?_, fun again top₂ mode₂ hagain hapart => ?_,
    fun src node hsrc hapart hnode => ?_⟩
  · exact (Fingerprint.exists_ofTree_iff hstat hread).trans (and_iff_left hfits)
  · have hiff := exists_replicate_iff hs' hloc hsettles hagain hapart
    refine ⟨hiff, fun d₂ stats₂ h₂ => ?_⟩
    obtain ⟨hs₂, made₂, hloc₂, hsettles₂⟩ := exists_made hs' hagain h₂
    obtain ⟨hreplaced, hsame, -⟩ :=
      told_of_replicate hs' hloc hagain hapart hplain h₂ (Disk.get?_of_locate_ok hloc₂)
    have hfits₂ := hiff.mp ⟨d₂, stats₂, h₂⟩
    obtain rfl : made₂ = made := entries_eq_of_told (hs₂.get? (Disk.get?_of_locate_ok hloc₂))
      (hs'.get? hmade) (fun e he => (settled_of_mem hs₂ hloc₂ hsettles₂ he).1) hsettled hsame
    refine ⟨hreplaced, hloc₂, Fingerprint.ofTree_eq_of_told hstat hread ?_ hsame hfits hfits₂⟩
    rw [Disk.stat, hloc₂]
    rfl
  · have hstat' : d.stat source = .ok node := by
      rw [Disk.stat, hsrc]
      rfl
    cases node with
    | dir mode' es =>
      obtain ⟨-, hsame, hcan⟩ := told_of_replicate hs hsrc hdest hapart hnode h hmade
      exact Fingerprint.ofTree_eq_of_told hstat'
        (fun e he => ⟨hnode e he, (hcan e he).readable⟩) hstat hsame
        (fun e he => (hcan e he).source.path) fun e he => (hcan e he).dest.path
    | _ =>
      obtain rfl := replicate_of_not_dir hstat' rfl h
      obtain ⟨-, heq⟩ := Prod.mk.inj (Except.ok.inj (hloc.symm.trans hdest))
      refine Fingerprint.ofTree_eq_of_told hstat' (by simp [Node.beneath]) hstat ?_
        (by simp [Node.beneath]) (by simp [Node.beneath])
      rw [heq]
      rfl

/-- The copy of a tree with a link that leads out of it is copied to the directory that the link
led to. -/
theorem replicate_projects_straying :
    ∃ d' d₂ stats₂, replicate straying [0x2F, 0x73] [0x2F, 0x64] = (d', .ok ⟨1, 1, 1⟩) ∧
      replicate d' [0x2F, 0x64] [0x2F, 0x78, 0x2F, 0x79] = (d₂, .ok stats₂) ∧
      stats₂.replaced = 0 ∧
      Fingerprint.ofTree d₂ [0x2F, 0x78, 0x2F, 0x79] = Fingerprint.ofTree d' [0x2F, 0x64] := by
  obtain ⟨d', hd'⟩ : ∃ d', replicate straying [0x2F, 0x73] [0x2F, 0x64] = (d', .ok ⟨1, 1, 1⟩) :=
    ⟨_, rfl⟩
  have hdest : straying.locate [0x2F, 0x64] = .ok ([[0x64]], .dir 0o755 []) := rfl
  obtain ⟨made, hloc, -, -, hagain, -⟩ := replicate_projects isSound_straying hdest hd'
  have hempty : d'.locate [0x2F, 0x78, 0x2F, 0x79] = .ok ([[0x78], [0x79]], .dir 0o755 []) := by
    obtain rfl := (Prod.mk.inj hd').1
    rfl
  have hmade : made = [([0x66], .file 0o644 [1]),
      ([0x6C], .link [0x6D, 0x2F, 0x2E, 0x2E, 0x2F, 0x66]), ([0x6D], .dir 0o755 [])] := by
    obtain rfl := (Prod.mk.inj hd').1
    exact (Node.dir.inj (Prod.mk.inj (Except.ok.inj hloc)).2).2.symm
  obtain ⟨hiff, hsame⟩ := hagain _ _ _ hempty ⟨by decide, by decide⟩
  have hshort : Fingerprint.Fits [0x2F, 0x78, 0x2F, 0x79] made := by
    rw [hmade]
    decide
  obtain ⟨d₂, stats₂, h₂⟩ := hiff.mpr hshort
  obtain ⟨hreplaced, -, hhash⟩ := hsame d₂ stats₂ h₂
  exact ⟨d', d₂, stats₂, hd', h₂, hreplaced, hhash⟩

/-- A tree with a link to a directory beside it, and what was copied of the tree. -/
def detour (made : Entries) : Disk where
  root := .dir 0o755 [
    ([0x64], .dir 0o755 made),
    ([0x73], .dir 0o755 [([0x6D], .link [0x2E, 0x2E, 0x2F, 0x78])]),
    ([0x78], .dir 0o755 [])]

/-- A directory in the place of the link. -/
def detoured : Entries := [([0x6D], .dir 0o755 [])]

/-- What was made in the place of the link is not copied to where its path would be too long. -/
theorem replicate_detour_fails :
    (detour []).root.IsSound ∧
    replicate (detour []) [0x2F, 0x73] [0x2F, 0x64] = (detour detoured, .ok ⟨0, 0, 1⟩) ∧
    (detour detoured).locate (lengthy 0x78) = .ok ([[0x78]], .dir 0o755 []) ∧
    IsApart [[0x64]] [[0x78]] ∧
    ∀ d₂ stats₂, replicate (detour detoured) [0x2F, 0x64] (lengthy 0x78) ≠ (d₂, .ok stats₂) := by
  have hs : (detour []).root.IsSound := by decide
  have hdest : (detour []).locate [0x2F, 0x64] = .ok ([[0x64]], .dir 0o755 []) := rfl
  have hcopied : replicate (detour []) [0x2F, 0x73] [0x2F, 0x64] =
    (detour detoured, .ok ⟨0, 0, 1⟩) := rfl
  have hagain : (detour detoured).locate (lengthy 0x78) = .ok ([[0x78]], .dir 0o755 []) := by
    decide +kernel
  have hapart : IsApart [[0x64]] [[0x78]] := ⟨by decide, by decide⟩
  have hlong : ¬ Fingerprint.Fits (lengthy 0x78) detoured := by decide +kernel
  refine ⟨hs, hcopied, hagain, hapart, fun d₂ stats₂ h₂ => ?_⟩
  obtain ⟨hs', made, hloc, hsettles⟩ := exists_made hs hdest hcopied
  obtain rfl : detoured = made := (Node.dir.inj (Prod.mk.inj (Except.ok.inj hloc)).2).2
  exact hlong ((exists_replicate_iff hs' hloc hsettles hagain hapart).mp ⟨d₂, stats₂, h₂⟩)

end Depot.Archive
