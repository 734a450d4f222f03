import Depot.Proofs.Archive.Drawing
import Depot.Proofs.Checkout.Rebuild

/-!
Builds on different machines. A build by itself comes to what is told of the tree of its commit, so
builds of one path of one tree end alike wherever the tree is and whatever else their disks hold, and
also if the trees differ in those bits of their modes that no archive depends on.
-/

namespace Depot

open Files Archive Fingerprint

/-- Two runs end alike: with one result, or with failures of one kind, unless a path is too long for
one of them. -/
inductive EndAlike {α : Type} : Except Failure α → Except Failure α → Prop
  | ok (a : α) : EndAlike (.ok a) (.ok a)
  | error {f f' : Failure} (h : f.ctorIdx = f'.ctorIdx) : EndAlike (.error f) (.error f')
  | tooLong (context : String) (r : Except Failure α) :
    EndAlike (.error (.ofErrno context .nameTooLong)) r
  | tooLong' (context : String) (r : Except Failure α) :
    EndAlike r (.error (.ofErrno context .nameTooLong))

theorem Trouble.Explains.ctorIdx_eq {t : Trouble} {f f' : Failure} (h : t.Explains f)
    (h' : t.Explains f') : f.ctorIdx = f'.ctorIdx := by
  cases h <;> cases h' <;> rfl

/-- What was told of two runs decides how they end. -/
theorem Fulfils.endAlike {α : Type} {r r' : Except Failure α} {told : Except Trouble α}
    (h : Fulfils Eq r told) (h' : Fulfils Eq r' told) : EndAlike r r' := by
  cases h with
  | tooLong context => exact .tooLong context r'
  | ok h =>
    subst h
    cases h' with
    | ok h' =>
      subst h'
      exact .ok _
    | tooLong context => exact .tooLong' context _
  | error h =>
    cases h' with
    | error h' => exact .error (h.ctorIdx_eq h')
    | tooLong context => exact .tooLong' context _

namespace Workspace

/-- A build by itself, with what its copy counts. -/
def pack (d : Disk) (checkout : Bytes) (path : String) (workspace : Bytes) :
    Except Failure (Option (Stats × ArchiveHash)) := do
  match ← subtree? d checkout path with
  | none => return none
  | some source =>
    let k ← copied (replicate d source workspace)
    let hash ← ofTree k.disk workspace
    return some (k.stats, hash)

theorem build_eq_pack (d : Disk) (checkout : Bytes) (path : String) (workspace : Bytes) :
    build d checkout path workspace =
      (pack d checkout path workspace).map fun packed? => packed?.map (·.2) := by
  rw [build, pack]
  cases subtree? d checkout path with
  | error f => rfl
  | ok source? =>
    cases source? with
    | none => rfl
    | some source =>
      simp only [bind, Except.bind, copied]
      cases replicate d source workspace with
      | mk d' r =>
      cases r with
      | error f => rfl
      | ok stats =>
        simp only [Except.map]
        cases ofTree d' workspace <;> rfl

/-- The tree of a commit is found at one path and an empty directory apart from it at another. -/
structure Stages (d : Disk) (checkout workspace : Bytes) (tree : Node) : Prop where
  sound : d.root.IsSound
  places : ∃ top root mode, d.go true checkout = .ok ⟨top, some tree⟩ ∧
    d.go true workspace = .ok ⟨root, some (.dir mode [])⟩ ∧ ¬ root <+: top ∧ ¬ top <+: root

/-! ### What is told of a build -/

/-- The directory that a path of a tree leads to, if there is one, or the trouble on the way. -/
def tellPath (tree : Node) (path : String) : Except Trouble (Option Place) :=
  match walk tree true linkLimit [] (hops (Utf8.ofString path)) with
  | .ok ⟨here, some (.dir ..)⟩ => .ok (some here)
  | .ok _ => .ok none
  | .error .notFound => .ok none
  | .error _ => .error .blocked

/-- What is told of a build: what its copy counts and the hash of that, if there is an archive. -/
def tellPack (tree : Node) (path : String) : Except Trouble (Option (Stats × ArchiveHash)) := do
  match ← tellPath tree path with
  | none => return none
  | some src =>
    let s ← drawing tree src
    let hash ← tellHash s.made
    return some (s.stats, hash)

variable {d : Disk} {checkout workspace : Bytes} {tree : Node} {path : String}

theorem lands_of_tellPath {src : Place} (h : tellPath tree path = .ok (some src)) :
    Lands tree path (some src) := by
  rw [tellPath] at h
  split at h
  · next here mode es hwalk =>
    obtain rfl := Option.some.inj (Except.ok.inj h)
    exact .dir hwalk
  all_goals cases h

theorem fulfils_sought (tree : Node) (top : Place) (path : String) :
    Fulfils (fun source? here? => source? = here?.map fun here => Disk.pathOf (top ++ here))
      (sought tree top path) (tellPath tree path) := by
  rw [sought, tellPath]
  cases walk tree true linkLimit [] (hops (Utf8.ofString path)) with
  | error e =>
    cases e with
    | notFound => exact .ok rfl
    | _ => exact .error (.blocked _ _)
  | ok found =>
    obtain ⟨here, node?⟩ := found
    cases node? with
    | none => exact .ok rfl
    | some x =>
      dsimp only
      by_cases hlong : (Disk.pathOf (top ++ here)).length > Disk.pathLimit
      · rw [if_pos hlong]
        exact .tooLong _ _
      · rw [if_neg hlong]
        cases x <;> exact .ok rfl

/-- A build of a path that leads nowhere but within the tree comes to what is told of it. -/
theorem fulfils_pack (hd : Stages d checkout workspace tree) (hdir : tree.isDir = true)
    (hrel : Path.isAbsolute (Utf8.ofString path) = false) (hnul : (0 : UInt8) ∉ Utf8.ofString path)
    (hcontained : IsContained tree path) :
    Fulfils Eq (pack d checkout path workspace) (tellPack tree path) := by
  obtain ⟨hsound, top, root, mode, hgo, hempty, hoff, hoff'⟩ := hd
  have htree := Disk.get?_of_go hgo
  have hs : tree.IsSound := hsound.get? htree
  have hne : top ≠ [] := by
    rintro rfl
    exact hoff' List.nil_prefix
  rw [pack]
  rcases subtree?_cases hgo hne (hsound.names htree) hdir hrel hnul hcontained.way with
    ⟨context, hlong⟩ | ⟨hb, heq⟩
  · rw [hlong]
    exact .tooLong _ _
  rw [heq, tellPack]
  generalize htold : tellPath tree path = told
  have hfound := fulfils_sought tree top path
  rw [htold] at hfound
  generalize sought tree top path = found at hfound
  cases hfound with
  | tooLong context => exact .tooLong _ _
  | error h => exact .error h
  | @ok source? here? hsource =>
    subst hsource
    cases here? with
    | none => exact .ok rfl
    | some src =>
      have hlands := lands_of_tellPath htold
      obtain ⟨mode', es, hsrc⟩ := hlands.isDirAt
      have hl := Disk.leadsTo_of_go hempty
      change Fulfils Eq (copied _ >>= _) (drawing tree src >>= _)
      refine Fulfils.bind (fulfils_replicate hs hsound hb hsrc (hcontained.copy src hlands) hl
        (Disk.get?_of_go hempty) hoff hoff') fun k s hdrawn => ?_
      obtain ⟨mode'', hholds⟩ := hdrawn.matched.holds
      refine (fulfils_ofTree hdrawn.underway.leads hholds).bind fun hash hash' hsame => .ok ?_
      rw [hsame, hdrawn.stats]

theorem tellPath_essence (tree : Node) (path : String) :
    tellPath (tree.moded essentialMode) path = tellPath tree path := by
  rw [tellPath, tellPath, walk_moded]
  cases walk tree true linkLimit [] (hops (Utf8.ofString path)) with
  | error e => rfl
  | ok found =>
    obtain ⟨here, node?⟩ := found
    cases node? with
    | none => rfl
    | some x => cases x <;> simp [Except.map, Found.moded, Node.moded]

/-- The essence of a tree tells as much of a build as the tree. -/
theorem tellPack_essence (tree : Node) (path : String) :
    tellPack (tree.moded essentialMode) path = tellPack tree path := by
  have hdrawn : ∀ src,
      (do let s ← drawing (tree.moded essentialMode) src
          let hash ← tellHash s.made
          return some (s.stats, hash)) =
        (do let s ← drawing tree src
            let hash ← tellHash s.made
            return some (s.stats, hash)) := by
    intro src
    rw [drawing_essence]
    cases drawing tree src with
    | error t => rfl
    | ok s => simp only [Except.map, bind, Except.bind, Sketch.essence, tellHash_essenceAll]
  rw [tellPack, tellPack, tellPath_essence]
  simp only [hdrawn]

/-- Builds of a path end alike in any two file systems that hold the tree of one commit, wherever the
tree is and whatever else there is, as long as no link that is followed leads out of the tree. The
trees may differ in all bits of their modes but those that tell whether a file may be read by its owner
and whether anybody may run it. -/
theorem pack_endAlike {d d' : Disk} {checkout checkout' workspace workspace' : Bytes}
    {tree tree' : Node} {given path : String} (hd : Stages d checkout workspace tree)
    (hd' : Stages d' checkout' workspace' tree') (hsame : tree.essence = tree'.essence)
    (hdir : tree.isDir = true) (hpath : Path.normalize given = .ok path)
    (hcontained : IsContained tree path) (hcontained' : IsContained tree' path) :
    EndAlike (pack d checkout path workspace) (pack d' checkout' path workspace') := by
  obtain ⟨hrel, hnul⟩ := Path.relative_of_normalize hpath
  have hmoded : tree.moded essentialMode = tree'.moded essentialMode := hsame
  have hdir' : tree'.isDir = true := by
    rw [← Node.isDir_moded essentialMode, ← hmoded, Node.isDir_moded, hdir]
  have h := fulfils_pack hd hdir hrel hnul hcontained
  have h' := fulfils_pack hd' hdir' hrel hnul hcontained'
  rw [← tellPack_essence, ← hmoded, tellPack_essence] at h'
  exact h.endAlike h'

theorem pack_of_long {found : Found} {x : Node} (hgo : d.go true checkout = .ok found)
    (hx : found.node = some x) (hlong : (Disk.pathOf found.place).length > Disk.pathLimit) :
    ∃ context, pack d checkout path workspace = .error (.ofErrno context .nameTooLong) := by
  have hroot := (Disk.resolve_eq hgo hx).trans (if_pos hlong)
  rw [pack, subtree?, hroot]
  exact ⟨_, rfl⟩

/-! ### A tree in several places -/

/-- A tree at a place, and an empty directory in the root. -/
def lodging (n : Name) (names : Place) (scratch : Name) (tree : Node) : Disk where
  root := .dir 0o755 [(n, Node.buried tree names), (scratch, .dir 0o755 [])]

section

variable {n scratch : Name} {names : Place} (hlt : n < scratch)
  (hnames : ∀ m ∈ scratch :: n :: names, IsName m ∧ m.length ≤ 255) (hs : tree.IsSound)

theorem get?_lodging (n scratch : Name) (names : Place) (tree : Node) :
    (lodging n names scratch tree).root.get? (n :: names) = some tree := by
  rw [lodging, Node.get?_dir_cons]
  simpa [Entries.find?] using Node.get?_buried tree names

include hlt hnames hs

theorem isSound_lodging : (lodging n names scratch tree).root.IsSound := by
  have hbury : (Node.buried tree names).IsSound :=
    Node.isSound_buried (fun m hm => (hnames m (by simp [hm])).1) hs
  refine Node.isSound_dir_iff.mpr ⟨⟨by simpa using hlt, ?_⟩, ?_⟩
  · simpa using ⟨(hnames n (by simp)).1, (hnames scratch (by simp)).1⟩
  · simpa using ⟨hbury, Node.isSound_dir_iff.mpr ⟨.nil, by simp⟩⟩

theorem go_lodging (hdir : tree.isDir = true) :
    (lodging n names scratch tree).go true (Disk.pathOf (n :: names)) =
      .ok ⟨n :: names, some tree⟩ := by
  have htree := get?_lodging n scratch names tree
  have hl := Disk.leadsTo_pathOf (fun m hm => (hnames m (List.mem_cons_of_mem _ hm)).2)
    ((isSound_lodging hlt hnames hs).names htree) (.of_isDir htree (by simp [hdir]))
  exact hl.go htree

theorem stages_lodging (hdir : tree.isDir = true) :
    Stages (lodging n names scratch tree) (Disk.pathOf (n :: names)) (Disk.pathOf [scratch])
      tree := by
  have hne : n ≠ scratch := fun heq => List.lt_irrefl n (heq ▸ hlt)
  have hsound := isSound_lodging hlt hnames hs
  have hempty : (lodging n names scratch tree).root.get? [scratch] = some (.dir 0o755 []) := by
    rw [lodging, Node.get?_dir_cons]
    simp [Entries.find?, hne.symm]
  have hl := Disk.leadsTo_pathOf (fun m hm => (hnames m (by simp_all)).2) (hsound.names hempty)
    ⟨_, _, hempty⟩
  refine ⟨hsound, _, _, _, go_lodging hlt hnames hs hdir, hl.go hempty, ?_, ?_⟩
  · simpa using hne.symm
  · simpa using fun heq => absurd heq hne

end

/-- A directory with a link to a file beside the directory. -/
def borrowing (mode : Nat) : Node :=
  .dir 0o755 [
    ([0x61], .dir 0o755 [([0x6C], .link [0x2E, 0x2E, 0x2F, 0x66])]),
    ([0x66], .file mode [1])]

theorem isSound_borrowing (mode : Nat) : (borrowing mode).IsSound := by
  have hsorted : ([[0x61], [0x66]] : Place).Pairwise (· < ·) := by decide
  have hnames : ∀ n ∈ ([[0x61], [0x66]] : Place), IsName n := by decide
  refine Node.isSound_dir_iff.mpr ⟨.of_fst hsorted hnames, ?_⟩
  have hlink : (Node.link [0x2E, 0x2E, 0x2F, 0x66]).IsSound := Node.isSound_link_iff.mpr (by decide)
  have hdir : (Node.dir 0o755 [([0x6C], .link [0x2E, 0x2E, 0x2F, 0x66])]).IsSound :=
    Node.isSound_dir_iff.mpr ⟨.of_fst (by decide) (by decide), by simpa using hlink⟩
  simpa using ⟨hdir, Node.isSound_file mode [1]⟩

theorem isContained_borrowing (mode : Nat) : IsContained (borrowing mode) "a" := by
  have hhops : hops (Utf8.ofString "a") = [.name [0x61]] := by decide
  have hdir : (borrowing mode).get? ([] ++ [[0x61]]) =
      some (.dir 0o755 [([0x6C], .link [0x2E, 0x2E, 0x2F, 0x66])]) := rfl
  have hway : (⟨linkLimit, [], [[0x61]].map .name⟩ : Way).IsInside (borrowing mode) :=
    Way.isInside_names hdir (by simp)
  refine ⟨hhops ▸ hway, fun src hlands c rest made hreached _ => ?_⟩
  have hlands' : Lands (borrowing mode) "a" (some [[0x61]]) := .dir rfl
  obtain rfl := Option.some.inj (hlands.unique hlands')
  obtain ⟨mode', es, hx, hsteps⟩ := hreached
  cases hx
  have hfile : walk (borrowing mode) true linkLimit [] ([[0x61], [0x6C]].map .name) =
    .ok ⟨[[0x66]], some (.file mode [1])⟩ := rfl
  have hmore : ∀ node? more, (Chore.entry [[0x6C]] .link).Makes (borrowing mode) [[0x61]] node? more →
      more = [] := by
    intro node? more hmakes
    cases hmakes with
    | kept | filled => rfl
    | opened hfinds => cases hfinds.walk_eq.symm.trans hfile
  rcases Relation.ReflTransGen.cases_head hsteps with heq | ⟨s, hstep, hrest⟩
  · obtain ⟨rfl, -⟩ := List.cons.inj (congrArg Prod.fst heq)
    -- The way of the link goes down to it, up to the file and down to that.
    have htarget : ∀ target, (borrowing mode).get? [[0x61], [0x6C]] = some (.link target) →
        Path.isAbsolute target = false := by
      rintro target ⟨⟩
      rfl
    refine .head (Way.not_leaves_name (by rintro target ⟨⟩)) (.down (by decide) hdir (by simp)) ?_
    refine .head (Way.not_leaves_name htarget) (.jump (by decide) rfl) ?_
    refine .head (Way.not_leaves_up (by decide)) (.up ⟨_, _, rfl⟩) ?_
    exact .head (Way.not_leaves_name (by rintro target ⟨⟩)) (.down (by decide) rfl (by simp))
      Way.isInside_nil
  · exfalso
    cases hstep with
    | skip hmakes =>
      obtain rfl := hmore _ _ hmakes
      cases eq_of_works_nil hrest
    | make hmakes =>
      obtain rfl := hmore _ _ hmakes
      cases eq_of_works_nil hrest

/-- The tree right below the root. -/
def nearby (mode : Nat) : Disk := lodging [0x63] [] [0x77] (borrowing mode)

theorem stages_nearby (mode : Nat) :
    Stages (nearby mode) [0x2F, 0x63] [0x2F, 0x77] (borrowing mode) :=
  stages_lodging (by decide) (by decide) (isSound_borrowing mode) rfl

/-- One archive, wherever the tree is. -/
theorem pack_endAlike_borrowing : ∃ hash,
    pack (nearby 0o644) [0x2F, 0x63] "a" [0x2F, 0x77] = .ok (some (⟨1, 0, 1⟩, hash)) ∧
      pack (lodging [0x78] [[0x79]] [0x7A] (borrowing 0o600)) [0x2F, 0x78, 0x2F, 0x79] "a"
        [0x2F, 0x7A] = .ok (some (⟨1, 0, 1⟩, hash)) := by
  obtain ⟨hash, hpack⟩ : ∃ hash, pack (nearby 0o644) [0x2F, 0x63] "a" [0x2F, 0x77] =
    .ok (some (⟨1, 0, 1⟩, hash)) := ⟨_, rfl⟩
  obtain ⟨hash', hpack'⟩ : ∃ hash, pack (lodging [0x78] [[0x79]] [0x7A] (borrowing 0o600))
    [0x2F, 0x78, 0x2F, 0x79] "a" [0x2F, 0x7A] = .ok (some (⟨1, 0, 1⟩, hash)) := ⟨_, rfl⟩
  have hd' : Stages (lodging [0x78] [[0x79]] [0x7A] (borrowing 0o600)) [0x2F, 0x78, 0x2F, 0x79]
      [0x2F, 0x7A] (borrowing 0o600) :=
    stages_lodging (by decide) (by decide) (isSound_borrowing _) rfl
  have halike := pack_endAlike (stages_nearby 0o644) hd' rfl rfl
    (show Path.normalize "a" = .ok "a" by decide) (isContained_borrowing _) (isContained_borrowing _)
  rw [hpack, hpack'] at halike
  cases halike
  exact ⟨hash, hpack, hpack'⟩

/-- The tree as far below the root as no path gets. -/
def faraway : Disk := lodging longestName (List.replicate 16 longestName) [0x77] (borrowing 0o644)

/-- Of one tree an archive is made, but not where the path of the tree is too long, nor if the owner of
the file may not read it. -/
theorem pack_borrowing_fails :
    IsContained (borrowing 0o644) "a" ∧ IsContained (borrowing 0o044) "a" ∧
    isExecutable 0o044 = isExecutable 0o644 ∧
    (Stages (nearby 0o644) [0x2F, 0x63] [0x2F, 0x77] (borrowing 0o644) ∧
      ∃ archive, pack (nearby 0o644) [0x2F, 0x63] "a" [0x2F, 0x77] = .ok (some archive)) ∧
    (Stages (nearby 0o044) [0x2F, 0x63] [0x2F, 0x77] (borrowing 0o044) ∧
      ∃ f, pack (nearby 0o044) [0x2F, 0x63] "a" [0x2F, 0x77] = .error f) ∧
    Stages faraway (Disk.pathOf (List.replicate 17 longestName)) [0x2F, 0x77] (borrowing 0o644) ∧
      ∃ context, pack faraway (Disk.pathOf (List.replicate 17 longestName)) "a" [0x2F, 0x77] =
        .error (.ofErrno context .nameTooLong) := by
  have hlong : (Disk.pathOf (List.replicate 17 longestName)).length > Disk.pathLimit := by
    decide +kernel
  have hnames : ∀ m ∈ [0x77] :: List.replicate 17 longestName, IsName m ∧ m.length ≤ 255 := by
    intro m hm
    have hm' : m = [0x77] ∨ m = longestName := by simpa [List.mem_replicate] using hm
    rcases hm' with rfl | rfl <;> decide +kernel
  have hlt : longestName < [0x77] := by decide +kernel
  have hs := isSound_borrowing 0o644
  exact ⟨isContained_borrowing _, isContained_borrowing _, by decide,
    ⟨stages_nearby _, _, rfl⟩, ⟨stages_nearby _, _, rfl⟩, stages_lodging hlt hnames hs rfl,
    pack_of_long (go_lodging hlt hnames hs rfl) rfl hlong⟩

end Workspace

end Depot
