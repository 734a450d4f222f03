import Depot.History.Access
import Depot.Proofs.Files.Growth

/-!
What cloning into a new directory does: nothing, or it makes one sound tree there. This is so
whatever is asked for and whatever the repository holds.
-/

namespace Depot

open Files

namespace WorkTree

theorem isSound_node? (sources : List Attributes.Source) (above : List Octets) {node node' : Node}
    (hs : node.IsSound) (h : node? sources above node = some node') : node'.IsSound := by
  let p (node : Node) := ∀ sources above node', node.IsSound →
    node? sources above node = some node' → node'.IsSound
  let q (es : Entries) := ∀ sources above es', (∀ e ∈ es, e.2.IsSound) →
    entries? sources above es = some es' →
      es'.map (·.1) = es.map (·.1) ∧ ∀ e ∈ es', e.2.IsSound
  refine Node.induction (p := p) (q := q) ?file ?link ?special ?dir ?nil ?cons node sources above
    node' hs h
  case file =>
    intro mode data sources above node' _ h
    simp only [node?] at h
    split_ifs at h
    obtain ⟨wishes, -, rfl⟩ := Option.map_eq_some_iff.mp h
    exact Node.isSound_file _ _
  case link =>
    intro target sources above node' hs h
    simp only [node?] at h
    split_ifs at h
    obtain rfl := Option.some.inj h
    exact hs
  case special =>
    intro kind sources above node' hs h
    obtain rfl := Option.some.inj h
    exact hs
  case dir =>
    intro mode es ih sources above node' hs h
    obtain ⟨es', hes', rfl⟩ := Option.map_eq_some_iff.mp h
    obtain ⟨hes, hall⟩ := Node.isSound_dir_iff.mp hs
    obtain ⟨hnames, hall'⟩ := ih _ _ _ hall hes'
    exact Node.isSound_dir_iff.mpr ⟨hes.of_names hnames, hall'⟩
  case nil =>
    intro sources above es' _ h
    obtain rfl := Option.some.inj h
    simp
  case cons =>
    intro n node rest ihnode ihrest sources above es' hall h
    obtain ⟨hnode, hrest⟩ := List.forall_mem_cons.mp hall
    simp only [entries?, bind, Option.bind_eq_some_iff] at h
    obtain ⟨node', hnode', rest', hrest', h⟩ := h
    obtain rfl := Option.some.inj h
    obtain ⟨hnames, hall'⟩ := ihrest _ _ _ hrest hrest'
    refine ⟨by simp [hnames], List.forall_mem_cons.mpr ⟨ihnode _ _ _ hnode hnode', hall'⟩⟩

theorem isSound_ofTree? {tree es : Entries} (hs : (Node.dir 0o755 tree).IsSound)
    (h : ofTree? tree = some es) : (Node.dir 0o755 es).IsSound := by
  refine isSound_node? [] [] hs ?_
  rw [ofTree?] at h
  simp [node?, h]

end WorkTree

namespace World

theorem isSound_insert {mode : Nat} {es : Entries} {n : Name} {node : Node}
    (h : (Node.dir mode es).IsSound) (hn : IsName n) (hnode : node.IsSound) :
    (Node.dir mode (Entries.insert n node es)).IsSound := by
  obtain ⟨hes, hall⟩ := Node.isSound_dir_iff.mp h
  refine Node.isSound_dir_iff.mpr ⟨hes.insert hn node, fun e he => ?_⟩
  rcases Entries.mem_insert he with rfl | he
  · exact hnode
  · exact hall e he

theorem isSound_empty (mode : Nat) : (Node.dir mode []).IsSound :=
  Node.isSound_dir_iff.mpr ⟨.nil, by simp⟩

theorem isSound_named (mode : Nat) {names : List (String × Node)} {es : Entries}
    (h : (Node.dir mode es).IsSound)
    (hall : ∀ n ∈ names, IsName (Utf8.ofString n.1) ∧ n.2.IsSound) :
    (Node.dir mode (names.foldl (fun es n => Entries.insert (Utf8.ofString n.1) n.2 es) es)).IsSound := by
  induction names generalizing es with
  | nil => exact h
  | cons n names ih =>
    obtain ⟨⟨hn, hnode⟩, hrest⟩ := List.forall_mem_cons.mp hall
    exact ih (isSound_insert h hn hnode) hrest

theorem isName_gitName : IsName Repository.gitName := by decide

theorem isSound_cloneRepository (mode : Nat) (source : Bytes) (ref id : Octets) :
    (Node.dir mode (cloneRepository source ref id)).IsSound := by
  have hnames : ∀ n ∈ ["HEAD", "config", "objects", "packed-refs", "refs", "info", "pack",
      "alternates", "heads", "tags"], IsName (Utf8.ofString n) := by decide
  have hfile (text : Octets) : (Node.file 0o644 (Octets.toBytes text)).IsSound :=
    Node.isSound_file _ _
  refine isSound_named _ (isSound_empty _) ?_
  simp only [List.forall_mem_cons, List.not_mem_nil, false_implies, implies_true, and_true]
  refine ⟨⟨hnames _ (by simp), hfile _⟩, ⟨hnames _ (by simp), Node.isSound_file _ _⟩,
    ⟨hnames _ (by simp), ?_⟩, ⟨hnames _ (by simp), hfile _⟩, ⟨hnames _ (by simp), ?_⟩⟩
  · refine isSound_named _ (isSound_empty _) ?_
    simp only [List.forall_mem_cons, List.not_mem_nil, false_implies, implies_true, and_true]
    refine ⟨⟨hnames _ (by simp), isSound_named _ (isSound_empty _) ?_⟩, hnames _ (by simp),
      isSound_empty _⟩
    simp only [List.forall_mem_cons, List.not_mem_nil, false_implies, implies_true, and_true]
    exact ⟨hnames _ (by simp), hfile _⟩
  · refine isSound_named _ (isSound_empty _) ?_
    simp only [List.forall_mem_cons, List.not_mem_nil, false_implies, implies_true, and_true]
    exact ⟨⟨hnames _ (by simp), isSound_empty _⟩, hnames _ (by simp), isSound_empty _⟩

/-- What is checked out of a commit is such as a disk can hold. -/
def HasSoundTrees (w : World) : Prop :=
  ∀ c ∈ w.commits, ∀ es, WorkTree.ofTree? c.2.tree = some es → (Node.dir 0o755 es).IsSound

theorem hasSoundTrees_of_isSound {w : World}
    (h : ∀ c ∈ w.commits, (Node.dir 0o755 c.2.tree).IsSound) : w.HasSoundTrees :=
  fun c hc _ hes => WorkTree.isSound_ofTree? (h c hc) hes

theorem mem_of_assoc? {α β : Type} [DecidableEq α] {key : α} {value : β} {pairs : List (α × β)}
    (h : assoc? key pairs = some value) : (key, value) ∈ pairs := by
  induction pairs with
  | nil => cases h
  | cons p pairs ih =>
    simp only [assoc?] at h
    split_ifs at h with hk
    · obtain rfl := Option.some.inj h
      rw [hk]
      exact List.mem_cons_self
    · exact List.mem_cons_of_mem _ (ih h)

/-- The tree that is checked out of a commit. -/
def Commits (w : World) (commit : CommitId) (tree : Entries) : Prop :=
  ∃ snapshot, assoc? commit w.commits = some snapshot ∧ WorkTree.ofTree? snapshot.tree = some tree

theorem Commits.isSound {w : World} {commit : CommitId} {tree : Entries} (h : w.Commits commit tree)
    (ht : w.HasSoundTrees) : (Node.dir 0o755 tree).IsSound := by
  obtain ⟨snapshot, hsnapshot, htree⟩ := h
  exact ht _ (mem_of_assoc? hsnapshot) _ htree

theorem Commits.unique {w w' : World} {commit : CommitId} {tree tree' : Entries}
    (h : w.Commits commit tree) (h' : w'.Commits commit tree') (hsame : w'.commits = w.commits) :
    tree' = tree := by
  obtain ⟨s, hs, htree⟩ := h
  obtain ⟨s', hs', htree'⟩ := h'
  rw [hsame] at hs'
  obtain rfl := Option.some.inj (hs'.symm.trans hs)
  exact Option.some.inj (htree'.symm.trans htree)

theorem checkOut_eq {w : World} (ht : w.HasSoundTrees) (place : Place) (source : Bytes)
    (ref id : Octets) :
    ∃ es, (Node.dir 0o755 es).IsSound ∧
      (w.checkOut place source ref id).1 = { w with disk := w.disk.put place (.dir 0o755 es) } ∧
      ((w.checkOut place source ref id).2.code = some 0 →
        ∃ tree, w.Commits ⟨String.ofList id⟩ tree ∧
          es = Entries.insert Repository.gitName (.dir 0o755 (cloneRepository source ref id)) tree) := by
  have hgit := isSound_cloneRepository 0o755 source ref id
  rw [checkOut]
  split
  · next tree htree =>
    obtain ⟨snapshot, hsnapshot, htree⟩ := Option.bind_eq_some_iff.mp htree
    split_ifs at htree
    exact ⟨_, isSound_insert (ht _ (mem_of_assoc? hsnapshot) _ htree) isName_gitName hgit, rfl,
      fun _ => ⟨tree, ⟨snapshot, hsnapshot, htree⟩, rfl⟩⟩
  · exact ⟨_, isSound_insert (isSound_empty _) isName_gitName hgit, rfl, nofun⟩

/-- What a clone of a branch holds: the tree of a commit, and a repository with its head there. -/
def Clones (w : World) (repo : Bytes) (branch : String) (commit : CommitId) (tree es : Entries) :
    Prop :=
  ∃ source ref id, cloneSource? w.disk repo = some source ∧
    branchOrTag? w.disk source branch = .ok (some (ref, id)) ∧ commit = ⟨String.ofList id⟩ ∧
    w.Commits commit tree ∧
    es = Entries.insert Repository.gitName (.dir 0o755 (cloneRepository source ref id)) tree

section clone

variable {w w' : World} {base dir : Bytes} {home names place : Place} {c : Name} {mode : Nat}

theorem parent?_join (he : Extends base names dir) (hc : IsName c) :
    Path.parent? (Path.join dir c) = some (normal dir) := by
  have hcomponents : Path.components (Path.join dir c) = Path.components dir ++ [.name c] := by
    rw [(he.join hc).components, he.components, List.append_assoc, List.map_append]
    rfl
  rw [Path.parent?, hcomponents, List.getLast?_concat, List.dropLast_concat]
  rfl

/-- The directory that something is cloned into has nothing to be made above it. -/
theorem makeDirs_above (hl : w.disk.LeadsTo base home) (hne : names ≠ [])
    (he : Extends base names dir) (hdir : w.disk.root.IsDirAt (home ++ names)) :
    (w.disk.makeDirs (normal dir)).toOption.getD w.disk = w.disk := by
  rcases List.eq_nil_or_concat names with hnil | ⟨ns, n, rfl⟩
  · exact absurd hnil hne
  rw [List.concat_eq_append] at he hdir
  rw [← List.append_assoc] at hdir
  obtain ⟨mode, es, hx⟩ := hdir
  have hname := hl.names (he.isName n (by simp)) he.spells.normal.normal (.of_append (by simp) hx)
  rcases hname.makeDirs_cases he.spells.normal.ne_nil (fun _ => by rw [hx]; nofun) with
    ⟨e, hmake⟩ | ⟨hnone, -⟩ | ⟨-, hmake⟩
  · rw [hmake]
    rfl
  · rw [hx] at hnone
    cases hnone
  · rw [hmake]
    rfl

theorem makeDirs_inside {d made : Disk} (hs : d.root.IsSound) (hl : d.LeadsTo base home)
    (he : Extends base names dir) (hc : IsName c) (hlen : ∀ m ∈ names, m.length ≤ 255)
    (hempty : d.root.get? (home ++ names) = some (.dir mode []))
    (hplace : place = home ++ (names ++ [c]))
    (hmake : d.makeDirs (Path.join dir c) = .ok made) :
    made = d.put place (.dir 0o755 []) ∧ made.LeadsTo (Path.join dir c) place := by
  have hjoin := he.join hc
  have hplace' : home ++ names ++ [c] = place := by rw [hplace, List.append_assoc]
  have hdir : d.root.IsDirAt (home ++ names) := ⟨mode, [], hempty⟩
  have hnone : d.root.get? place = none := by
    rw [← hplace', Node.get?_append, hempty]
    rfl
  have hname := hl.names hc hjoin.spells.normal hdir
  have hcases := hname.makeDirs_cases hjoin.spells.ne_nil (fun _ => by rw [hplace', hnone]; nofun)
  rw [hplace'] at hcases
  rcases hcases with ⟨e, hmake'⟩ | ⟨-, hclen, hmake'⟩ | ⟨⟨m, es, hx⟩, -⟩
  · rw [hmake'] at hmake
    cases hmake
  · rw [hmake'] at hmake
    obtain rfl := Except.ok.inj hmake
    refine ⟨rfl, ?_⟩
    have hne : place ≠ [] := by simp [hplace]
    have hlook : ∀ other, ¬ place <+: other →
        (d.put place (.dir 0o755 [])).root.look other = d.root.look other :=
      fun other hother => Disk.look_alter_outside hs hne hother _
    have hhome : ¬ place <+: home := by
      intro hp
      have hle := hp.length_le
      rw [hplace] at hle
      simp only [List.length_append, List.length_singleton] at hle
      omega
    have hl' : (d.put place (.dir 0o755 [])).LeadsTo base home :=
      hl.frame rfl (fun other hother => (hlook other fun hp => hother
        ((hplace ▸ List.prefix_append home (names ++ [c])).trans hp)).symm)
        ((Node.isDirAt_of_look_eq (hlook home hhome)).mpr hl.dir)
    have hput := Disk.get?_put_self hs hne (by simpa [← hplace'] using hdir) (.dir 0o755 []) []
    rw [List.append_nil, Node.get?_nil] at hput
    have hall : ∀ m ∈ names ++ [c], m.length ≤ 255 := by
      intro m hm
      rcases List.mem_append.mp hm with hm | hm
      · exact hlen m hm
      · obtain rfl := List.mem_singleton.mp hm
        exact hclen
    have hdown := hl'.down hall hjoin.spells (hplace ▸ ⟨0o755, [], hput⟩)
    rwa [← hplace] at hdown
  · rw [hnone] at hx
    cases hx

/-- A clone leaves a new tree where there was an empty directory, or nothing at all. -/
theorem clone_cases (hs : w.disk.root.IsSound) (ht : w.HasSoundTrees)
    (hl : w.disk.LeadsTo base home) (hne : names ≠ []) (he : Extends base names dir) (hc : IsName c)
    (hlen : ∀ m ∈ names, m.length ≤ 255)
    (hempty : w.disk.root.get? (home ++ names) = some (.dir mode []))
    (hplace : place = home ++ (names ++ [c])) {repo : Bytes} {branch : String} {finished : Finished}
    (h : w.clone repo branch (Path.join dir c) = (w', finished)) :
    w' = w ∧ finished.code ≠ some 0 ∨ ∃ es, (Node.dir 0o755 es).IsSound ∧
      w' = { w with disk := (w.disk.put place (.dir 0o755 [])).put place (.dir 0o755 es) } ∧
      (finished.code = some 0 → ∃ commit tree, w.Clones repo branch commit tree es) := by
  have habove : (((Path.parent? (Path.join dir c)).bind fun dir =>
      (w.disk.makeDirs dir).toOption).getD w.disk) = w.disk := by
    rw [parent?_join he hc]
    exact makeDirs_above hl hne he ⟨mode, [], hempty⟩
  have hfatal : ∀ text, (Finished.fatal text).code ≠ some 0 := by simp [Finished.fatal]
  unfold clone at h
  simp only [habove] at h
  split at h
  · obtain ⟨rfl, rfl⟩ := Prod.mk.inj h
    exact .inl ⟨rfl, hfatal _⟩
  next source hsource =>
  split_ifs at h
  · obtain ⟨rfl, rfl⟩ := Prod.mk.inj h
    exact .inl ⟨rfl, hfatal _⟩
  cases hmake : w.disk.makeDirs (Path.join dir c) with
  | error e =>
    simp only [hmake] at h
    obtain ⟨rfl, rfl⟩ := Prod.mk.inj h
    exact .inl ⟨rfl, hfatal _⟩
  | ok made =>
    simp only [hmake] at h
    obtain ⟨rfl, hlead⟩ := makeDirs_inside hs hl he hc hlen hempty hplace hmake
    rcases hlead.locate_cases with hloc | ⟨m, es, -, hloc⟩
    · simp only [hloc] at h
      obtain ⟨rfl, rfl⟩ := Prod.mk.inj h
      exact .inl ⟨rfl, hfatal _⟩
    · simp only [hloc] at h
      cases hbranch : branchOrTag? w.disk source branch with
      | error e =>
        simp only [hbranch] at h
        obtain ⟨rfl, rfl⟩ := Prod.mk.inj h
        exact .inl ⟨rfl, hfatal _⟩
      | ok found? =>
        cases found? with
        | none =>
          simp only [hbranch] at h
          obtain ⟨rfl, rfl⟩ := Prod.mk.inj h
          exact .inl ⟨rfl, hfatal _⟩
        | some found =>
          obtain ⟨ref, id⟩ := found
          simp only [hbranch] at h
          split_ifs at h
          · let inside : World := { w with disk := w.disk.put place (.dir 0o755 []) }
            obtain ⟨es, hes, hout, hcode⟩ := @checkOut_eq inside ht place source ref id
            rw [h] at hout hcode
            refine .inr ⟨es, hes, hout, fun hzero => ?_⟩
            obtain ⟨tree, htree, heq⟩ := hcode hzero
            exact ⟨_, tree, source, ref, id, hsource, hbranch, rfl, htree, heq⟩
          · obtain ⟨rfl, rfl⟩ := Prod.mk.inj h
            exact .inl ⟨rfl, hfatal _⟩
          · obtain ⟨rfl, rfl⟩ := Prod.mk.inj h
            exact .inr ⟨_, isSound_insert (isSound_empty 0o755) isName_gitName (isSound_empty 0o755),
              rfl, nofun⟩

end clone

theorem clone_eq {w : World} {repo source dest : Bytes} {branch : String} {made : Disk}
    {place : Place} {x : Node} {ref id : Octets} {snapshot : Snapshot} {tree : Entries}
    (hsource : cloneSource? w.disk repo = some source) (hfree : isFree w.disk dest = true)
    (habove : ((Path.parent? dest).bind fun dir => (w.disk.makeDirs dir).toOption).getD w.disk =
      w.disk) (hmade : w.disk.makeDirs dest = .ok made) (hloc : made.locate dest = .ok (place, x))
    (hfound : branchOrTag? w.disk source branch = .ok (some (ref, id)))
    (hknows : w.knows source id = true)
    (hsnapshot : assoc? ⟨String.ofList id⟩ w.commits = some snapshot)
    (hobjects : Objects.areIn made source snapshot.objects = true)
    (htree : WorkTree.ofTree? snapshot.tree = some tree) :
    w.clone repo branch dest = ({ w with disk := made.put place (.dir 0o755
      (Entries.insert Repository.gitName (.dir 0o755 (cloneRepository source ref id)) tree)) },
      Finished.said "") := by
  unfold clone
  simp only [hsource, habove, hmade, hloc, hfound]
  rw [if_neg (by simp [hfree]), if_pos hknows]
  unfold checkOut
  simp only [hsnapshot, Option.bind_some, hobjects, if_true, htree]

theorem git_eq {w : World} (hf : w.faults = []) (run : GitRun) :
    w.git run = ((w.runUndisturbed run).1, (w.runUndisturbed run).2.output run.command.text) := by
  rw [git, runGit, takeFault, hf]
  rfl

end World

theorem Finished.code_of_output_ok {f : Finished} {command out : String}
    (h : f.output command = .ok out) : f.code = some 0 := by
  rw [Finished.output] at h
  by_contra hcode
  rw [if_neg hcode] at h
  cases h

namespace History

variable {w w' : World} {repo dir : Bytes} {branch : String}

/-- Cloning a branch either runs the command, or does nothing. -/
theorem of_clone (hf : w.faults = []) {r : Except Failure Unit}
    (h : clone repo branch dir w = (w', r)) :
    w' = w ∧ r ≠ .ok () ∨
      ∃ finished, w.clone repo branch dir = (w', finished) ∧ (r = .ok () → finished.code = some 0) := by
  rw [clone] at h
  cases hvalid : Branch.validate branch with
  | error f =>
    simp only [hvalid] at h
    obtain ⟨rfl, rfl⟩ := Prod.mk.inj h
    exact .inl ⟨rfl, nofun⟩
  | ok _ =>
    simp only [hvalid, World.git_eq hf] at h
    cases hout : (w.runUndisturbed (.clone repo branch dir)).2.output
        (GitRun.clone repo branch dir).command.text with
    | error f =>
      simp only [hout] at h
      obtain ⟨rfl, rfl⟩ := Prod.mk.inj h
      exact .inr ⟨_, rfl, nofun⟩
    | ok out =>
      simp only [hout] at h
      obtain ⟨rfl, rfl⟩ := Prod.mk.inj h
      exact .inr ⟨_, rfl, fun _ => Finished.code_of_output_ok hout⟩

theorem clone_of_code (hf : w.faults = []) (hvalid : Branch.validate branch = .ok ())
    {finished : Finished} (h : w.clone repo branch dir = (w', finished))
    (hcode : finished.code = some 0) : clone repo branch dir w = (w', .ok ()) := by
  have hrun : w.runUndisturbed (.clone repo branch dir) = (w', finished) := h
  have hout : ∀ command, finished.output command =
      .ok (String.ofList (Utf8.lossy finished.out)) := fun _ => if_pos hcode
  rw [clone]
  simp only [hvalid, World.git_eq hf, hrun, hout]

theorem tip_fst (hf : w.faults = []) : (tip repo branch w).1 = w := by
  have hrun : (w.runUndisturbed (.tip repo branch)).1 = w := by
    unfold World.runUndisturbed
    dsimp only
    cases Repository.find? w.disk repo <;> rfl
  rw [tip]
  cases Branch.validate branch with
  | error f => rfl
  | ok _ =>
    simp only [World.git_eq hf, hrun]
    split
    · next heq => exact (Prod.mk.inj heq).1.symm
    · next heq =>
      split_ifs
      · exact (Prod.mk.inj heq).1.symm
      · exact (Prod.mk.inj heq).1.symm

theorem head_fst (hf : w.faults = []) : (head dir w).1 = w := by
  rw [head, World.git_eq hf]
  split
  · next heq => exact (Prod.mk.inj heq).1.symm
  · next heq => exact (Prod.mk.inj heq).1.symm

end History

end Depot
