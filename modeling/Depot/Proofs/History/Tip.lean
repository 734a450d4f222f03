import Depot.Proofs.History.Head

/-!
The commit that is told of a branch. As long as the branch is there it is the one that the branch is
at. Of a name that is no branch a commit may still be told: the full name of the branch is looked up
as if it were short, the digits at its end are taken for the start of an id, and a clone takes a tag
of the name.
-/

namespace Depot

open Files

namespace World

/-- What a full name of a ref stands for in the repository in a directory. -/
def RefAt (w : World) (dir : Bytes) (ref : Octets) (commit? : Option CommitId) : Prop :=
  ∃ t id?, Refs.table w.disk dir = .ok t ∧ t.id? ref = .ok id? ∧
    commit? = id?.map fun id => ⟨String.ofList id⟩

/-- A branch of the repository at a path is at a commit. -/
def HasTip (w : World) (repo : Bytes) (branch : String) (commit : CommitId) : Prop :=
  ∃ dir, (Repository.find? w.disk repo = some dir ∨ cloneSource? w.disk repo = some dir) ∧
    w.RefAt dir (RefName.ofBranch branch) (some commit)

/-- A branch of the repository at a path is there, at a commit, for whoever asks for it and for whoever
clones it. -/
structure IsAt (w : World) (repo : Bytes) (branch : String) (commit : CommitId) : Prop where
  asked : ∀ dir, Repository.find? w.disk repo = some dir →
    w.RefAt dir (RefName.ofBranch branch) (some commit)
  cloned : ∀ source, cloneSource? w.disk repo = some source →
    w.RefAt source (RefName.ofBranch branch) (some commit) ∧
      ∀ t names, Refs.table w.disk source = .ok t → t.names (octets "refs/heads") = .ok names →
        RefName.ofBranch branch ∈ names

/-- There is no branch of a name, and the commit is that of another ref, or the only one that the
digits at the end of the name may be the start of. -/
inductive Mistakes (w : World) (repo : Bytes) (branch : String) (commit : CommitId) : Prop
  | expanded {dir : Bytes} {name : Octets} (hdir : Repository.find? w.disk repo = some dir)
    (hnone : w.RefAt dir (RefName.ofBranch branch) none)
    (hname : name ∈ (RefName.expansions (RefName.ofBranch branch)).tail)
    (h : w.RefAt dir name (some commit))
  | described {dir : Bytes} {digits : Octets} (hdir : Repository.find? w.disk repo = some dir)
    (hnone : ∀ name ∈ RefName.expansions (RefName.ofBranch branch), w.RefAt dir name none)
    (hdigits : RefName.describing? (RefName.ofBranch branch) = some digits)
    (h : ∀ id, id ∈ w.idsFrom dir digits ↔ id = commit.text.toList)
  | tag {source : Bytes} {t : Refs.Table} {names : List Octets}
    (hsource : cloneSource? w.disk repo = some source) (htable : Refs.table w.disk source = .ok t)
    (hnames : t.names (octets "refs/heads") = .ok names)
    (hnone : RefName.ofBranch branch ∈ names → t.id? (RefName.ofBranch branch) = .ok none)
    (h : w.RefAt source (octets ("refs/tags/" ++ branch)) (some commit))

end World

namespace Refs.Table

variable {t : Table} {name id : Octets}

/-- The first name that stands for an id is the first of all, or the first of all stands for none. -/
theorem first?_cons_cases {names : List Octets} {first : Octets}
    (h : t.first? (first :: names) = .ok (some (name, id))) :
    name = first ∧ t.id? first = .ok (some id) ∨
      t.id? first = .ok none ∧ name ∈ names ∧ t.id? name = .ok (some id) := by
  rw [first?] at h
  cases hid : t.id? first with
  | error damage =>
    rw [hid] at h
    cases h
  | ok id? =>
    rw [hid] at h
    cases id? with
    | some id' =>
      obtain ⟨rfl, rfl⟩ := Prod.mk.inj (Option.some.inj (Except.ok.inj h))
      exact .inl ⟨rfl, rfl⟩
    | none => exact .inr ⟨rfl, of_first? h⟩

/-- If none of some names stands for an id, each of them stands for none. -/
theorem id?_of_first?_none {names : List Octets} (h : t.first? names = .ok none) :
    ∀ name ∈ names, t.id? name = .ok none := by
  induction names with
  | nil => simp
  | cons first names ih =>
    rw [first?] at h
    cases hid : t.id? first with
    | error damage =>
      rw [hid] at h
      cases h
    | ok id? =>
      rw [hid] at h
      cases id? with
      | some id => cases Except.ok.inj h
      | none => exact List.forall_mem_cons.mpr ⟨hid, ih h⟩

end Refs.Table

namespace World

variable {w : World} {repo dir : Bytes} {branch : String} {commit : CommitId}

theorem of_meaning? {name id : Octets} (h : meaning? w.disk dir name = .ok (some id)) :
    Refs.IsId id ∧ (w.RefAt dir name (some ⟨String.ofList id⟩) ∨ w.RefAt dir name none ∧
      ∃ other ∈ (RefName.expansions name).tail, w.RefAt dir other (some ⟨String.ofList id⟩)) := by
  rw [meaning?] at h
  cases htable : Refs.table w.disk dir with
  | error damage =>
    rw [htable] at h
    cases h
  | ok t =>
    rw [htable] at h
    simp only [bind, Except.bind, pure, Except.pure] at h
    cases hfirst : t.first? (RefName.expansions name) with
    | error damage =>
      rw [hfirst] at h
      cases h
    | ok found? =>
      rw [hfirst] at h
      obtain ⟨found, rfl, rfl⟩ := Option.map_eq_some_iff.mp (Except.ok.inj h)
      refine ⟨(Refs.Table.of_follow (Refs.Table.of_id? (Refs.Table.of_first? hfirst).2)).1, ?_⟩
      rcases Refs.Table.first?_cons_cases hfirst with ⟨-, hid⟩ | ⟨hnone, hmem, hid⟩
      · exact .inl ⟨t, _, htable, hid, rfl⟩
      · exact .inr ⟨⟨t, none, htable, hnone, rfl⟩, found.1, hmem, t, _, htable, hid, rfl⟩

/-- What no name stands for is at nothing under any of its expansions. -/
theorem of_meaning?_none {name : Octets} (h : meaning? w.disk dir name = .ok none) :
    ∀ other ∈ RefName.expansions name, w.RefAt dir other none := by
  rw [meaning?] at h
  cases htable : Refs.table w.disk dir with
  | error damage =>
    rw [htable] at h
    cases h
  | ok t =>
    rw [htable] at h
    simp only [bind, Except.bind, pure, Except.pure] at h
    cases hfirst : t.first? (RefName.expansions name) with
    | error damage =>
      rw [hfirst] at h
      cases h
    | ok found? =>
      rw [hfirst] at h
      obtain rfl := Option.map_eq_none_iff.mp (Except.ok.inj h)
      exact fun other hother => ⟨t, none, htable, Refs.Table.id?_of_first?_none hfirst other hother, rfl⟩

/-- A commit that is described is the only one whose id starts with the digits of the name. -/
theorem of_described? {name id : Octets} (h : w.described? dir name = some id) :
    ∃ digits, RefName.describing? name = some digits ∧ ∀ other, other ∈ w.idsFrom dir digits ↔
      other = id := by
  rw [described?] at h
  obtain ⟨digits, hdigits, hids⟩ := Option.bind_eq_some_iff.mp h
  refine ⟨digits, hdigits, ?_⟩
  cases hfrom : w.idsFrom dir digits with
  | nil =>
    rw [hfrom] at hids
    cases hids
  | cons first rest =>
    rw [hfrom] at hids
    dsimp only at hids
    split_ifs at hids with hrest
    obtain rfl := Option.some.inj hids
    intro other
    rw [List.mem_cons]
    refine ⟨fun hother => hother.elim id fun hmem => ?_, .inl⟩
    simpa using List.all_eq_true.mp hrest other hmem

theorem isId_of_mem_idsFrom {digits id : Octets} (h : id ∈ w.idsFrom dir digits) : Refs.IsId id := by
  have hid := (List.mem_filter.mp h).2
  simp only [Bool.and_eq_true, decide_eq_true_eq] at hid
  exact Refs.isId_of_leadingId? hid.1.1

/-- The commit of a clone is that of the branch, or of a tag if there is no such branch. -/
theorem Clones.hasTip_or_mistakes {tree es : Entries} (h : w.Clones repo branch commit tree es) :
    w.HasTip repo branch commit ∨ w.Mistakes repo branch commit := by
  obtain ⟨source, ref, id, hsource, hfound, rfl, -, -⟩ := h
  have hname := of_branchOrTag? hfound
  rw [branchOrTag?] at hfound
  simp only [bind, Except.bind, throw, throwThe, MonadExceptOf.throw] at hfound
  split at hfound
  · cases hfound
  next t htable =>
  split_ifs at hfound
  split at hfound
  · cases hfound
  next names hnames =>
  split at hfound
  · cases hfound
  next tags _ =>
  obtain ⟨-, hid⟩ := Refs.Table.of_first? hfound
  by_cases href : ref = RefName.ofBranch branch
  · subst href
    exact .inl ⟨source, .inr hsource, t, _, htable, hid, rfl⟩
  · obtain rfl := hname.1.resolve_left href
    refine .inr (.tag hsource htable hnames (fun hmem => ?_) ⟨t, _, htable, hid, rfl⟩)
    rw [List.filter_cons_of_pos (by simp [hmem])] at hfound
    rcases Refs.Table.first?_cons_cases hfound with ⟨heq, -⟩ | ⟨hnone, -⟩
    · exact absurd heq href
    · exact hnone

theorem RefAt.eq {ref : Octets} {commit? commit?' : Option CommitId} (h : w.RefAt dir ref commit?)
    (h' : w.RefAt dir ref commit?') : commit? = commit?' := by
  obtain ⟨t, id?, htable, hid, rfl⟩ := h
  obtain ⟨t', id?', htable', hid', rfl⟩ := h'
  obtain rfl := Except.ok.inj (htable.symm.trans htable')
  obtain rfl := Except.ok.inj (hid.symm.trans hid')
  rfl

/-- Of a branch that is there no other commit is told. -/
theorem IsAt.commit_eq {other : CommitId} (h : w.IsAt repo branch commit)
    (hother : w.HasTip repo branch other ∨ w.Mistakes repo branch other) : other = commit := by
  have hthere : ∀ {dir : Bytes}, w.RefAt dir (RefName.ofBranch branch) (some commit) →
      ¬ w.RefAt dir (RefName.ofBranch branch) none := by
    intro dir hsome hnone
    cases hsome.eq hnone
  rcases hother with ⟨dir, hdir | hsource, htip⟩ | ⟨hdir, hnone, -, -⟩ | ⟨hdir, hnone, -, -⟩ |
      ⟨hsource, htable, hnames, hnone, -⟩
  · exact Option.some.inj (htip.eq (h.asked dir hdir))
  · exact Option.some.inj (htip.eq (h.cloned dir hsource).1)
  · exact absurd hnone (hthere (h.asked _ hdir))
  · exact absurd (hnone _ List.mem_cons_self) (hthere (h.asked _ hdir))
  · obtain ⟨hsome, hlisted⟩ := h.cloned _ hsource
    exact absurd ⟨_, none, htable, hnone (hlisted _ _ htable hnames), rfl⟩ (hthere hsome)

end World

namespace History

open World

variable {w w' : World} {repo : Bytes} {branch : String} {commit : CommitId}

theorem tip_of_said (hf : w.faults = []) (hvalid : Branch.validate branch = .ok ()) {id : Octets}
    (hid : Refs.IsId id) (hsaid : w.runUndisturbed (.tip repo branch) =
      (w, .said (String.ofList id ++ "\n"))) :
    tip repo branch w = (w, .ok ⟨String.ofList id⟩) := by
  have hfirst := CommitId.ofString_firstLine hid
  have hout : (Finished.said (String.ofList id ++ "\n")).output
      (GitRun.tip repo branch).command.text =
        .ok (String.ofList (Utf8.lossy (Utf8.ofString (String.ofList id ++ "\n")))) := rfl
  rw [tip, hvalid]
  dsimp only
  rw [World.git_eq hf, hsaid, hout]
  dsimp only
  generalize firstLine _ = line at hfirst ⊢
  have hne : line ≠ "" := by
    rintro rfl
    have hnil := congrArg (fun commit => commit.text.toList) hfirst
    exact hid.ne_nil (by simpa [CommitId.ofString, trimmed, trimBlank] using hnil.symm)
  rw [if_neg hne, hfirst]

theorem of_tip (hf : w.faults = []) (h : tip repo branch w = (w', .ok commit)) : ∃ out,
    (w.runUndisturbed (.tip repo branch)).2.output (GitRun.tip repo branch).command.text = .ok out ∧
      .ofString (firstLine out) = commit := by
  rw [tip] at h
  split at h
  · cases (Prod.mk.inj h).2
  rw [World.git_eq hf] at h
  cases hout : (w.runUndisturbed (.tip repo branch)).2.output
      (GitRun.tip repo branch).command.text with
  | error f =>
    rw [hout] at h
    cases (Prod.mk.inj h).2
  | ok out =>
    rw [hout] at h
    dsimp only at h
    split at h
    · cases (Prod.mk.inj h).2
    · exact ⟨out, rfl, Except.ok.inj (Prod.mk.inj h).2⟩

/-- The commit that is told of a branch is the one that it is at, or else there is no such branch. -/
theorem hasTip_or_mistakes_of_tip (hf : w.faults = [])
    (h : tip repo branch w = (w', .ok commit)) :
    w.HasTip repo branch commit ∨ w.Mistakes repo branch commit := by
  obtain ⟨out, hout, rfl⟩ := of_tip hf h
  generalize (GitRun.tip repo branch).command.text = command at hout
  have hsilent : ∀ {finished : Finished}, finished.code ≠ some 0 →
      finished.output command ≠ .ok out := fun hcode hok =>
    hcode (Finished.code_of_output_ok hok)
  unfold runUndisturbed at hout
  dsimp only at hout
  cases hdir : Repository.find? w.disk repo with
  | none =>
    rw [hdir] at hout
    exact absurd hout (hsilent nofun)
  | some dir =>
  rw [hdir] at hout
  dsimp only at hout
  rw [tipOf] at hout
  cases hmeaning : meaning? w.disk dir (RefName.ofBranch branch) with
  | error damage =>
    rw [hmeaning] at hout
    exact absurd hout (hsilent nofun)
  | ok id? =>
  rw [hmeaning] at hout
  cases id? with
  | none =>
    dsimp only at hout
    cases hdescribed : w.described? dir (RefName.ofBranch branch) with
    | none =>
      rw [hdescribed] at hout
      exact absurd hout (hsilent nofun)
    | some id =>
      rw [hdescribed] at hout
      obtain ⟨digits, hdigits, hids⟩ := of_described? hdescribed
      have hid : Refs.IsId id := isId_of_mem_idsFrom ((hids id).mpr rfl)
      obtain rfl : String.ofList (Utf8.lossy (Utf8.ofString (String.ofList id ++ "\n"))) = out :=
        Except.ok.inj hout
      rw [CommitId.ofString_firstLine hid]
      refine .inr (.described hdir (of_meaning?_none hmeaning) hdigits fun other => ?_)
      rw [String.toList_ofList]
      exact hids other
  | some id =>
    dsimp only at hout
    split at hout
    · obtain ⟨hid, hmeans⟩ := of_meaning? hmeaning
      obtain rfl : String.ofList (Utf8.lossy (Utf8.ofString (String.ofList id ++ "\n"))) = out :=
        Except.ok.inj hout
      rw [CommitId.ofString_firstLine hid]
      rcases hmeans with htip | ⟨hnone, name, hname, hother⟩
      · exact .inl ⟨dir, .inl hdir, htip⟩
      · exact .inr (.expanded hdir hnone hname hother)
    · exact absurd hout (hsilent nofun)

end History

end Depot
