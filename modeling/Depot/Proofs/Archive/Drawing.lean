import Depot.Proofs.Archive.Telling

/-!
A whole copy drawn from its tree alone: what it makes, what that counts for, and which hash it has, or
the trouble that it ends in. A copy on a disk and its archive come to what is drawn, unless one of their
paths is too long.
-/

namespace Depot.Archive

open Files

/-- A copy as it is drawn: what was made so far, and what that counts for. -/
structure Sketch where
  made : Entries := []
  stats : Stats := {}

/-- What a chore makes is added at its place. -/
def Sketch.add (s : Sketch) (c : Chore) (node? : Option Node) : Sketch where
  made := match node? with
    | some node => fill s.made node c.target
    | none => s.made
  stats := s.stats + (c.task []).count node?

/-- Draws chores in order; `below` draws those that one of them gives. -/
def drawEach (tree : Node) (src : Place) (below : List Chore → Sketch → Except Trouble Sketch) :
    List Chore → Sketch → Except Trouble Sketch
  | [], s => .ok s
  | c :: rest, s => do
    let told ← c.tell tree src
    let s ← below told.2 (s.add c told.1)
    drawEach tree src below rest s

/-- Draws chores with all that they give, through `levels` directories. -/
def draw (tree : Node) (src : Place) : Nat → List Chore → Sketch → Except Trouble Sketch
  | 0, [], s => .ok s
  | 0, _ :: _, _ => .error .blocked
  | levels + 1, cs, s => drawEach tree src (draw tree src levels) cs s

/-- Draws a whole copy of the directory at `src`. -/
def drawing (tree : Node) (src : Place) : Except Trouble Sketch :=
  draw tree src Disk.pathLimit (chores ((tree.get? src).elim [] Node.children)) {}

/-- A copy on a disk has come as far as its sketch. -/
structure Drawn (tree : Node) (top src root : Place) (dest : Bytes) (k : Copying) (cs : List Chore)
    (s : Sketch) : Prop where
  underway : Underway root dest k.disk (cs.map (Chore.task top))
  bears : k.disk.Bears top tree
  matched : Matches tree top src root k.disk (cs.map (Chore.task top)) cs s.made
  stats : k.stats = s.stats

/-- What a task leaves, if it does not fail. -/
def Taken.result (taken : Taken) : Except Failure (Copying × List Task) :=
  taken.2.map fun more => (taken.1, more)

/-- What a copy has come to, if it did not stop early. -/
def Copying.Progress.result (p : Copying.Progress) : Except Failure Copying :=
  match p.stop with
  | none => .ok p.copying
  | some f => .error f

theorem Chore.count_task (top : Place) (c : Chore) (node? : Option Node) :
    (c.task top).count node? = (c.task []).count node? := by
  cases c with
  | entry place kind => rfl
  | inner v n kind => cases node? <;> rfl

section

variable {tree : Node} {top src root : Place} {dest : Bytes} {k : Copying} {s : Sketch}
  (hs : tree.IsSound) (hconfined : IsConfined tree src) (hoff : ¬ root <+: top)
  (hoff' : ¬ top <+: root)
include hs hconfined hoff hoff'

/-- A task takes a copy and its sketch on together. -/
theorem Drawn.take {c : Chore} {rest : List Chore}
    (h : Drawn tree top src root dest k (c :: rest) s) :
    Fulfils (fun taken told => taken.2 = told.2.map (Chore.task top) ∧
        Drawn tree top src root dest taken.1 (told.2 ++ rest) (s.add c told.1))
      (Taken.result (k.take ⟨Disk.pathOf (top ++ src), dest⟩ (c.task top))) (c.tell tree src) := by
  obtain ⟨hu, hb, ⟨-, hstands, ⟨mode, hholds⟩, hreached⟩, hstats⟩ := h
  have hr := hu.ready _ List.mem_cons_self
  have hc := hstands c List.mem_cons_self
  have htold := hc.isTold_read hs hu.sound hb (hconfined c rest s.made hreached)
  have hwrites : Writes k _ _ _ _ (k.take ⟨Disk.pathOf (top ++ src), dest⟩ (c.task top)) :=
    Copying.writes_take hu.sound hu.leads hr
  -- A task that does not fail goes on with what is told of its chore.
  have hgoes : ∀ k' more told, c.tell tree src = .ok told →
      k.take ⟨Disk.pathOf (top ++ src), dest⟩ (c.task top) = (k', .ok more) →
      more = told.2.map (Chore.task top) →
      k'.disk = (match told.1 with
        | some node => k.disk.put (root ++ c.target) node
        | none => k.disk) →
      k'.stats = k.stats + (c.task top).count told.1 →
      Drawn tree top src root dest k' (told.2 ++ rest) (s.add c told.1) := by
    rintro k' more ⟨node?, cs⟩ htell htake rfl hdisk hcount
    obtain ⟨hu', hsame, -⟩ := hu.step (Copying.effect_of_take hu.sound hu.leads hr htake)
    rw [← List.map_append] at hu'
    have hmakes := Chore.makes_of_tell htell
    refine ⟨hu', bears_of_sameOff hb hu.sound hu'.sound hsame hoff hoff', ⟨rfl, ?_, ?_, ?_⟩, ?_⟩
    · exact List.forall_mem_append.mpr ⟨hc.of_makes hs hmakes,
        fun m hm => hstands m (List.mem_cons_of_mem _ hm)⟩
    · rw [hdisk]
      cases node? with
      | none => exact ⟨mode, hholds⟩
      | some node =>
        have hne : c.target ≠ [] := by simpa using hr.ne_nil
        exact ⟨mode, get?_put_fill hu.sound hne hholds node⟩
    · cases node? with
      | none => exact hreached.tail (.skip hmakes)
      | some node => exact hreached.tail (.make hmakes)
    · rw [hcount, hstats, c.count_task]
      rfl
  generalize htell : c.tell tree src = told at htold
  generalize htake : k.take ⟨Disk.pathOf (top ++ src), dest⟩ (c.task top) = taken at hwrites
  generalize (c.task top).read k.disk (Disk.pathOf (top ++ src)) = found at hwrites htold
  cases hwrites with
  | failed f => exact Fulfils.of_error htold
  | refused _ hnot stats context => exact .tooLong context _
  | skipped more =>
    cases more with
    | error f => exact Fulfils.of_error htold
    | ok more =>
      cases htold with
      | @ok _ told h =>
        obtain ⟨node?, cs⟩ := told
        obtain rfl : none = node? := congrArg Prod.fst h
        obtain rfl : more = cs.map (Chore.task top) := congrArg Prod.snd h
        exact .ok ⟨rfl, hgoes _ _ _ htell htake rfl rfl (Stats.add_zero _).symm⟩
  | @made node more hfits =>
    cases more with
    | error f => exact Fulfils.of_error htold
    | ok more =>
      cases htold with
      | @ok _ told h =>
        obtain ⟨node?, cs⟩ := told
        obtain rfl : some node = node? := congrArg Prod.fst h
        obtain rfl : more = cs.map (Chore.task top) := congrArg Prod.snd h
        refine .ok ⟨rfl, hgoes _ _ _ htell htake rfl ?_ rfl⟩
        exact congrArg (fun place => k.disk.put (root ++ place) node) (c.target_task top)

/-- Tasks are carried out as their chores are drawn. -/
def KeepsUp (tree : Node) (top src root : Place) (dest : Bytes)
    (carryOut : List Task → Copying.Progress → Copying.Progress)
    (drawAll : List Chore → Sketch → Except Trouble Sketch) : Prop :=
  ∀ k taken cs rest s, Drawn tree top src root dest k (cs ++ rest) s →
    Fulfils (fun k s => Drawn tree top src root dest k rest s)
      (carryOut (cs.map (Chore.task top)) ⟨k, taken, none⟩).result (drawAll cs s)

theorem keepsUp_takeEach {below : List Task → Copying.Progress → Copying.Progress}
    {drawAll : List Chore → Sketch → Except Trouble Sketch}
    (hbelow : KeepsUp tree top src root dest below drawAll) :
    KeepsUp tree top src root dest (Copying.takeEach ⟨Disk.pathOf (top ++ src), dest⟩ below)
      (drawEach tree src drawAll) := by
  intro k taken cs rest s h
  induction cs generalizing k taken s with
  | nil => exact .ok h
  | cons c cs ih =>
    have htold := h.take hs hconfined hoff hoff'
    rw [List.map_cons, Copying.takeEach, drawEach]
    dsimp only
    generalize c.tell tree src = told at htold
    cases htake : k.take ⟨Disk.pathOf (top ++ src), dest⟩ (c.task top) with
    | mk k' r =>
    rw [htake] at htold
    cases r with
    | error f =>
      cases htold with
      | error h => exact .error h
      | tooLong context => exact .tooLong context _
    | ok more =>
      cases htold with
      | @ok _ told htold =>
        obtain ⟨heq, hdrawn⟩ := htold
        obtain rfl : more = told.2.map (Chore.task top) := heq
        have hmore := hbelow k' (taken + 1) _ _ _ hdrawn
        dsimp only [bind, Except.bind]
        generalize drawAll told.2 (s.add c told.1) = drawn at hmore ⊢
        generalize below (told.2.map (Chore.task top)) ⟨k', taken + 1, none⟩ = p at hmore ⊢
        obtain ⟨k'', taken', stop⟩ := p
        cases stop with
        | none =>
          cases hmore with
          | ok hdrawn => exact ih _ _ _ hdrawn
        | some f =>
          -- A copy that was stopped takes no more tasks.
          have hkeep : Copying.takeEach ⟨Disk.pathOf (top ++ src), dest⟩ below
              (cs.map (Chore.task top)) ⟨k'', taken', some f⟩ = ⟨k'', taken', some f⟩ := by
            cases cs <;> rfl
          rw [hkeep]
          cases hmore with
          | error h => exact .error h
          | tooLong context => exact .tooLong context _

theorem keepsUp_takeAll (levels : Nat) :
    KeepsUp tree top src root dest (Copying.takeAll ⟨Disk.pathOf (top ++ src), dest⟩ levels)
      (draw tree src levels) := by
  induction levels with
  | zero =>
    intro k taken cs rest s h
    cases cs with
    | nil => exact .ok h
    | cons c cs => exact .tooLong _ _
  | succ levels ih => exact keepsUp_takeEach hs hconfined hoff hoff' ih

end

/-- What a whole copy comes to, if it does not fail. -/
def copied (r : Disk × Except Failure Stats) : Except Failure Copying :=
  r.2.map fun stats => ⟨r.1, stats⟩

theorem Drawn.of_tasks {tree : Node} {top src root : Place} {dest : Bytes} {d : Disk}
    {mode mode' : Nat} {es : Entries} (hs : tree.IsSound) (hsound : d.root.IsSound)
    (hb : d.Bears top tree) (hsrc : tree.get? src = some (.dir mode es)) (hl : d.LeadsTo dest root)
    (hempty : d.root.get? root = some (.dir mode' []))
    (htasks : Copying.tasks d (Disk.pathOf (top ++ src)) = .ok ((chores es).map (Chore.task top))) :
    Drawn tree top src root dest ⟨d, {}⟩ (chores es) {} := by
  have hm := matches_of_tasks hs hsound hb hsrc hempty htasks
  exact ⟨.of_tasks hsound hl hempty htasks, hb, hm, rfl⟩

theorem fulfils_replicate {tree : Node} {top src root : Place} {dest : Bytes} {d : Disk}
    {mode mode' : Nat} {es : Entries} (hs : tree.IsSound) (hsound : d.root.IsSound)
    (hb : d.Bears top tree) (hsrc : tree.get? src = some (.dir mode es))
    (hconfined : IsConfined tree src) (hl : d.LeadsTo dest root)
    (hempty : d.root.get? root = some (.dir mode' [])) (hoff : ¬ root <+: top)
    (hoff' : ¬ top <+: root) :
    Fulfils (fun k s => Drawn tree top src root dest k [] s)
      (copied (replicate d (Disk.pathOf (top ++ src)) dest)) (drawing tree src) := by
  have hdrawing : drawing tree src = draw tree src Disk.pathLimit (chores es) {} := by
    rw [drawing, hsrc]
    rfl
  rw [hdrawing]
  rcases Disk.shows_pathOf hb hsound hsrc (by simp) with hloc | hloc
  · have htasks : Copying.tasks d (Disk.pathOf (top ++ src)) = .error
        (Copying.walking (Disk.pathOf (top ++ src)) (.errno .nameTooLong)) := by
      rw [Copying.tasks, Disk.stat, hloc]
      rfl
    rw [replicate, htasks]
    exact .tooLong _ _
  · have htasks := Copying.tasks_of_locate hloc
    rw [(matches_of_tasks hs hsound hb hsrc hempty htasks).tasks_eq] at htasks
    have hdrawn := Drawn.of_tasks hs hsound hb hsrc hl hempty htasks
    rw [← List.append_nil (chores es)] at hdrawn
    have hkeeps := keepsUp_takeAll hs hconfined hoff hoff' Disk.pathLimit _ 0 _ _ _ hdrawn
    have hcopied : copied (replicate d (Disk.pathOf (top ++ src)) dest) =
        (Copying.finish ⟨Disk.pathOf (top ++ src), dest⟩
          ((chores es).map (Chore.task top)) d).result := by
      rw [replicate, htasks, Copying.Progress.result]
      dsimp only
      generalize Copying.finish _ _ d = p
      obtain ⟨k, taken, stop⟩ := p
      cases stop <;> rfl
    rw [hcopied]
    exact hkeeps

/-! ### The hash -/

/-- The archived form of the node at a place, or the trouble with it. -/
def tellItem (place : Place) (node : Node) : Except Trouble Tar.Item :=
  let name := joinWith [Path.slash] place
  if place.any fun n => !decide (Utf8.IsValid n) then .error .unfit
  else match node with
    | .dir .. => .ok (.directory name)
    | .file mode data =>
      if mode &&& Disk.ownerRead = 0 then .error .blocked
      else .ok (.file name (Fingerprint.isExecutable mode) data)
    | .link target => .ok (.link name target)
    | .special _ => .error .unfit

/-- The hash of entries, or the trouble with one of them. -/
def tellHash (es : Entries) : Except Trouble ArchiveHash :=
  ((Node.beneathAll es).mapM fun e => tellItem e.1 e.2).map Fingerprint.ofItems

theorem fulfils_item (root : Bytes) (place : Place) (node : Node) :
    Fulfils Eq (Fingerprint.item root place node) (tellItem place node) := by
  simp only [Fingerprint.item, tellItem, throw, throwThe, MonadExceptOf.throw, bind, Except.bind,
    pure, Except.pure]
  split_ifs with hvalid hlimit
  · exact .error (.unfit _ _)
  · exact .tooLong _ _
  cases node with
  | file mode data =>
    simp only [Disk.contents]
    split_ifs
    · exact .error (.blocked _ _)
    · exact .ok rfl
  | special kind => exact .error (.unfit _ _)
  | _ => exact .ok rfl

theorem fulfils_ofTree {d : Disk} {path : Bytes} {place : Place} {mode : Nat} {es : Entries}
    (h : d.LeadsTo path place) (hx : d.root.get? place = some (.dir mode es)) :
    Fulfils Eq (Fingerprint.ofTree d path) (tellHash es) := by
  rw [Fingerprint.ofTree, Fingerprint.items, tellHash]
  rcases h.stat_cases with hstat | ⟨mode', es', hx', hstat⟩
  · rw [hstat]
    exact .tooLong _ _
  · cases Option.some.inj (hx.symm.trans hx')
    rw [hstat]
    refine Fulfils.map (Fulfils.mapM fun e _ => fulfils_item path e.1 e.2) ?_
    rintro is _ rfl
    rfl

/-! ### The essence of a tree is drawn as the tree is -/

/-- What is drawn of the essence of a tree. -/
def Sketch.essence (s : Sketch) : Sketch := { s with made := Node.modedAll essentialMode s.made }

theorem Chore.count_essence (c : Chore) (node? : Option Node) :
    (c.task []).count (node?.map (Node.moded essentialMode)) = (c.task []).count node? := by
  cases node? with
  | none => rfl
  | some node =>
    cases c with
    | entry place kind =>
      cases kind <;> cases node <;>
        simp [Node.moded, task, Task.count, Task.tally, Stats.ofNode]
    | inner v n kind =>
      cases node <;> simp [Node.moded, task, Task.count, Task.tally, Stats.ofNode]

theorem Sketch.add_essence (s : Sketch) (c : Chore) (node? : Option Node) :
    s.essence.add c (node?.map (Node.moded essentialMode)) = (s.add c node?).essence := by
  cases node? with
  | none => rfl
  | some node =>
    have hcount := c.count_essence (some node)
    rw [Option.map_some] at hcount
    simp only [add, essence, Option.map_some, fill_essence, hcount]

theorem drawEach_essence {tree : Node} {src : Place}
    {below below' : List Chore → Sketch → Except Trouble Sketch}
    (h : ∀ cs s, below' cs s.essence = (below cs s).map Sketch.essence) (cs : List Chore) (s : Sketch) :
    drawEach (tree.moded essentialMode) src below' cs s.essence =
      (drawEach tree src below cs s).map Sketch.essence := by
  induction cs generalizing s with
  | nil => rfl
  | cons c cs ih =>
    rw [drawEach, drawEach, c.tell_essence]
    cases c.tell tree src with
    | error t => rfl
    | ok told =>
      simp only [Except.map, bind, Except.bind, Chore.toldEssence, Sketch.add_essence, h]
      cases below told.2 (s.add c told.1) with
      | error t => rfl
      | ok s' => exact ih s'

theorem draw_essence {tree : Node} {src : Place} (levels : Nat) (cs : List Chore) (s : Sketch) :
    draw (tree.moded essentialMode) src levels cs s.essence = (draw tree src levels cs s).map Sketch.essence := by
  induction levels generalizing cs s with
  | zero => cases cs <;> rfl
  | succ levels ih => exact drawEach_essence ih cs s

theorem chores_essenceAll (es : Entries) : chores (Node.modedAll essentialMode es) = chores es := by
  rw [chores, chores, Node.modedAll_eq, List.map_map]
  exact List.map_congr_left fun e _ => congrArg (Chore.entry [e.1]) (e.2.kind_moded essentialMode)

theorem drawing_essence (tree : Node) (src : Place) :
    drawing (tree.moded essentialMode) src = (drawing tree src).map Sketch.essence := by
  have hchores : chores (((tree.moded essentialMode).get? src).elim [] Node.children) =
      chores ((tree.get? src).elim [] Node.children) := by
    rw [Node.get?_moded]
    cases tree.get? src with
    | none => rfl
    | some x => exact (congrArg chores (x.children_moded essentialMode)).trans (chores_essenceAll x.children)
  rw [drawing, drawing, hchores]
  exact draw_essence _ _ {}

theorem tellItem_essence (place : Place) (node : Node) :
    tellItem place (node.moded essentialMode) = tellItem place node := by
  cases node with
  | file mode data =>
    rw [Node.moded]
    simp only [tellItem, essentialMode_and_ownerRead, isExecutable_essentialMode]
  | _ => simp only [tellItem, Node.moded]

theorem tellHash_essenceAll (es : Entries) : tellHash (Node.modedAll essentialMode es) = tellHash es := by
  rw [tellHash, tellHash, Node.beneathAll_modedAll, List.mapM_map]
  simp only [Function.comp_def, tellItem_essence]

end Depot.Archive
