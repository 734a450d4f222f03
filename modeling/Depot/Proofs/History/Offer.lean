import Depot.Proofs.Files.Making
import Depot.Proofs.History.Head

/-!
What a clone reads of a repository, apart from where it writes. Two clones of one offer into different
directories leave the same, say the same, and have the same head.
-/

namespace Depot

open Files

/-! ### The configuration that is written -/

namespace Configuration

/-- With what is written into a new configuration file, the repository can be used. -/
theorem isUsable_defaults : isUsable defaults = true := by decide +kernel

end Configuration

/-! ### What there is to be cloned -/

namespace Files.Disk

variable {d : Disk} {path : Bytes} {place : Place} {x : Node}

/-- A path that leads to a directory finds it unless it is too long. -/
theorem LeadsTo.locate_eq (h : d.LeadsTo path place) (hx : d.root.get? place = some x) :
    d.locate path =
      if path.length ≤ pathLimit then .ok (place, x) else .error .nameTooLong := by
  rw [locate, Disk.find, h.go hx]
  by_cases hlimit : path.length ≤ pathLimit
  · rw [if_neg (by omega), if_pos hlimit]
    rfl
  · rw [if_pos ⟨by omega, h.nul⟩, if_neg hlimit]
    rfl

end Files.Disk

namespace World

/-- The tree that is checked out of a commit, if a repository has all its objects. -/
def treeIn? (w : World) (source : Bytes) (id : Octets) : Option Entries :=
  (assoc? ⟨String.ofList id⟩ w.commits).bind fun s =>
    if Objects.areIn w.disk source s.objects then WorkTree.ofTree? s.tree else none

/-- What there is to be cloned: a ref, its id, and what is there of the commit. -/
structure Offer where
  ref : Octets
  id : Octets
  isKnown : Bool
  tree? : Option Entries

/-- What a clone of a branch finds in the repository at a path. -/
def offer? (w : World) (repo : Bytes) (branch : String) :
    Option (Bytes × Except Refs.Damage (Option Offer)) :=
  (cloneSource? w.disk repo).map fun source =>
    (source, (branchOrTag? w.disk source branch).map fun found? =>
      found?.map fun found => ⟨found.1, found.2, w.knows source found.2, w.treeIn? source found.2⟩)

/-- What a clone says, and the entries that it leaves. -/
structure Report where
  finished : Finished
  entries? : Option Entries

/-- What comes of an offer where there is a directory for the clone. -/
def Offer.report (o : Offer) (source : Bytes) (branch : String) : Report :=
  let git : Node := .dir 0o755 (cloneRepository source o.ref o.id)
  if o.isKnown then
    match o.tree? with
    | some tree => ⟨.said "", some (Entries.insert Repository.gitName git tree)⟩
    | none => ⟨.fatal "unable to checkout working tree", some [(Repository.gitName, git)]⟩
  else if o.ref = RefName.ofBranch branch then ⟨.fatal "update_ref failed for ref 'HEAD'", none⟩
  else ⟨⟨[], [], none⟩, some [(Repository.gitName, .dir 0o755 [])]⟩

/-- What comes of a clone into a new directory, which may have a path that is too long. -/
def report (repo : Bytes) (branch : String) (isShort : Bool) :
    Option (Bytes × Except Refs.Damage (Option Offer)) → Report
  | none => ⟨.fatal ("repository '" ++ Utf8.toStringLossy repo ++ "' does not exist"), none⟩
  | some (source, found) =>
    if !isShort then ⟨.fatal "could not create work tree dir", none⟩
    else match found with
      | .error _ => ⟨.fatal "the remote end hung up unexpectedly", none⟩
      | .ok none => ⟨.fatal ("Remote branch " ++ branch ++ " not found"), none⟩
      | .ok (some o) => o.report source branch

/-- Puts what a clone leaves at a place. -/
def leave (w : World) (place : Place) (entries? : Option Entries) : World :=
  match entries? with
  | none => w
  | some es => { w with disk := (w.disk.put place (.dir 0o755 [])).put place (.dir 0o755 es) }

/-- What is offered for the tree of a commit is what is checked out. -/
theorem checkOut_eq_treeIn? (w : World) (place : Place) (source : Bytes) (ref id : Octets) :
    w.checkOut place source ref id =
      match w.treeIn? source id with
      | some tree => ({ w with disk := w.disk.put place (.dir 0o755 (Entries.insert Repository.gitName
          (.dir 0o755 (cloneRepository source ref id)) tree)) }, .said "")
      | none => ({ w with disk := w.disk.put place (.dir 0o755
          [(Repository.gitName, .dir 0o755 (cloneRepository source ref id))]) },
          .fatal "unable to checkout working tree") := rfl

section offer

variable {w v : World} {repo source : Bytes} {branch : String} {ref id : Octets}

theorem offer?_of_none (h : cloneSource? w.disk repo = none) : w.offer? repo branch = none := by
  rw [offer?, h]
  rfl

theorem offer?_of_some (h : cloneSource? w.disk repo = some source) :
    w.offer? repo branch = some (source, (branchOrTag? w.disk source branch).map fun found? =>
      found?.map fun found =>
        ⟨found.1, found.2, w.knows source found.2, w.treeIn? source found.2⟩) := by
  rw [offer?, h]
  rfl

theorem treeIn?_eq_of_offer? (h : v.offer? repo branch = w.offer? repo branch)
    (hsource : cloneSource? w.disk repo = some source)
    (hfound : branchOrTag? w.disk source branch = .ok (some (ref, id))) :
    v.treeIn? source id = w.treeIn? source id := by
  rw [offer?_of_some hsource, hfound] at h
  obtain ⟨source', -, h⟩ := Option.map_eq_some_iff.mp h
  obtain ⟨rfl, h⟩ := Prod.mk.inj h
  cases hfound' : branchOrTag? v.disk source' branch with
  | error e =>
    rw [hfound'] at h
    cases h
  | ok found? =>
    rw [hfound'] at h
    obtain ⟨found, -, h⟩ := Option.map_eq_some_iff.mp (Except.ok.inj h)
    obtain ⟨-, rfl, -, htree⟩ := Offer.mk.inj h
    exact htree

end offer

section clone

variable {w w' : World} {base dir repo : Bytes} {home names place : Place} {c : Name} {mode : Nat}
  {branch : String}

/-- A clone into a new directory inside an empty one. It finds the same whether its directory is
made yet or not. -/
theorem clone_report (hs : w.disk.root.IsSound) (hl : w.disk.LeadsTo base home) (hne : names ≠ [])
    (he : Extends base names dir) (hc : IsName c) (hlen : ∀ m ∈ names, m.length ≤ 255)
    (hempty : w.disk.root.get? (home ++ names) = some (.dir mode []))
    (hplace : place = home ++ (names ++ [c]))
    (hoffer : { w with disk := w.disk.put place (.dir 0o755 []) }.offer? repo branch =
      w.offer? repo branch) {isShort : Bool}
    (hshort : isShort = true ↔ Disk.IsShort (Path.join dir c) (names ++ [c])) :
    w.clone repo branch (Path.join dir c) =
      (w.leave place (report repo branch isShort (w.offer? repo branch)).entries?,
        (report repo branch isShort (w.offer? repo branch)).finished) := by
  have hjoin := he.join hc
  have hdir : w.disk.root.IsDirAt (home ++ names) := ⟨mode, [], hempty⟩
  have hplace' : home ++ names ++ [c] = place := by rw [hplace, List.append_assoc]
  have hfree : w.disk.root.get? (home ++ names ++ [c]) = none := by
    rw [Node.get?_append, hempty]
    rfl
  have hfound := hl.arrives.find_free hdir hfree hjoin.spells true
  have hmake := hl.arrives.makeDirs_free hjoin.spells.normal hdir hfree hjoin.spells.ne_nil rfl
  rw [hplace'] at hmake
  have hisfree : isFree w.disk (Path.join dir c) = true := by
    rw [isFree, Disk.stat, Disk.locate, hfound]
    split_ifs <;> rfl
  have habove : (((Path.parent? (Path.join dir c)).bind fun dir =>
      (w.disk.makeDirs dir).toOption).getD w.disk) = w.disk := by
    rw [parent?_join he hc]
    exact makeDirs_above hl hne he hdir
  unfold clone
  cases hsource : cloneSource? w.disk repo with
  | none =>
    rw [offer?_of_none hsource]
    rfl
  | some source =>
    simp only [habove]
    rw [offer?_of_some hsource, if_neg (by simp [hisfree])]
    by_cases hmade : Disk.IsShort (Path.join dir c) (names ++ [c])
    · rw [if_pos hmade] at hmake
      obtain ⟨-, hlead⟩ := makeDirs_inside hs hl he hc hlen hempty hplace hmake
      have hplace_ne : place ≠ [] := by simp [hplace]
      have hput := Disk.get?_put_self hs hplace_ne (by simpa [← hplace'] using hdir)
        (.dir 0o755 []) []
      rw [List.append_nil, Node.get?_nil] at hput
      have hloc := hlead.locate_eq hput
      simp only [hmake, hloc]
      rw [hshort.mpr hmade, if_pos hmade.path]
      cases hbranch : branchOrTag? w.disk source branch with
      | error e => rfl
      | ok found? =>
        cases found? with
        | none => rfl
        | some found =>
          obtain ⟨ref, id⟩ := found
          have htree := treeIn?_eq_of_offer? hoffer hsource hbranch
          simp only [Except.map, Option.map, report, Offer.report, checkOut_eq_treeIn?, htree,
            Bool.not_true, Bool.false_eq_true, if_false]
          split_ifs
          · cases w.treeIn? source id <;> rfl
          · rfl
          · rfl
    · have hlong : isShort = false := by
        rw [← Bool.not_eq_true, hshort]
        exact hmade
      rw [if_neg hmade] at hmake
      simp only [hmake]
      rw [hlong]
      rfl

/-- A clone that ends well leaves a tree with a repository. -/
theorem exists_of_report {isShort : Bool}
    (h : (report repo branch isShort (w.offer? repo branch)).finished.code = some 0) :
    ∃ source ref id tree, RefName.IsRef ref ∧ Refs.IsId id ∧
      (report repo branch isShort (w.offer? repo branch)).entries? =
        some (Entries.insert Repository.gitName (.dir 0o755 (cloneRepository source ref id)) tree) := by
  cases hsource : cloneSource? w.disk repo with
  | none =>
    rw [offer?_of_none hsource] at h
    cases h
  | some source =>
    rw [offer?_of_some hsource] at h ⊢
    cases isShort with
    | false => cases h
    | true =>
      cases hbranch : branchOrTag? w.disk source branch with
      | error e =>
        rw [hbranch] at h
        cases h
      | ok found? =>
        rw [hbranch] at h
        cases found? with
        | none => cases h
        | some found =>
          obtain ⟨ref, id⟩ := found
          obtain ⟨-, href, hid⟩ := of_branchOrTag? hbranch
          simp only [Except.map, Option.map, report, Offer.report, Bool.not_true, Bool.false_eq_true,
            if_false] at h ⊢
          split_ifs at h ⊢
          · cases htree : w.treeIn? source id with
            | none =>
              rw [htree] at h
              cases h
            | some tree => exact ⟨source, ref, id, tree, href, hid, rfl⟩
          · cases h

end clone

/-! ### Heads -/

section head

variable {d d' : Disk} {git git' source : Bytes} {place place' : Place} {ref id : Octets}

namespace HasRepository

/-- The refs of two clones, which are packed alike. -/
theorem exists_tables (h : HasRepository d git place source ref id)
    (h' : HasRepository d' git' place' source ref id) :
    ∃ t t', Refs.table d git = .ok t ∧ Refs.table d' git' = .ok t' ∧ IsTable d git id t ∧
      IsTable d' git' id t' ∧ t'.packed = t.packed := by
  obtain ⟨t, htable, ht, -⟩ := h.table_eq
  obtain ⟨t', htable', ht', -⟩ := h'.table_eq
  refine ⟨t, t', htable, htable', ht, ht', ?_⟩
  have hread := h.read (n := Refs.packedName) (by decide) (by decide) (find?_packed source ref id)
  have hread' := h'.read (n := Refs.packedName) (by decide) (by decide) (find?_packed source ref id)
  have hload : Refs.Packed.load d git = Refs.Packed.load d' git' := by
    rw [Refs.Packed.load, Refs.Packed.load, hread, hread']
  rw [Refs.table, hload] at htable
  rw [Refs.table] at htable'
  cases hps : Refs.Packed.load d' git' with
  | error e =>
    rw [hps] at htable
    cases htable
  | ok ps =>
    rw [hps] at htable htable'
    cases htable
    cases htable'
    rfl

section

variable (h : HasRepository d git place source ref id)
  (h' : HasRepository d' git' place' source ref id)
  (hloose : ∀ name, RefName.IsRef name → Refs.readLoose d git name = Refs.readLoose d' git' name)
  {t t' : Refs.Table} (ht : IsTable d git id t) (ht' : IsTable d' git' id t')
  (hpacked : t'.packed = t.packed)
include h h' hloose ht ht' hpacked

theorem value_eq_value {name : Octets}
    (hname : name = octets "HEAD" ∨ RefName.IsRef name) : t.value name = t'.value name := by
  rcases hname with rfl | hname
  · rw [h.value_head ht, h'.value_head ht']
  · have hvalue : ∀ lack, t.packedValue lack name = t'.packedValue lack name := fun lack => by
      rw [Refs.Table.packedValue, Refs.Table.packedValue, hpacked]
    rw [Refs.Table.value, Refs.Table.value, ht.1, ht.2.1, ht'.1, ht'.2.1, hloose name hname]
    simp only [hvalue]

theorem follow_eq_follow {links : Nat} {name : Octets}
    (hname : name = octets "HEAD" ∨ RefName.IsRef name) :
    t.follow links name = t'.follow links name := by
  induction links generalizing name with
  | zero => rfl
  | succ links ih =>
    have hvalue := h.value_eq_value h' hloose ht ht' hpacked hname
    rw [Refs.Table.follow, Refs.Table.follow, ← hvalue]
    split_ifs
    · rfl
    · cases hv : t.value name with
      | error lack => rfl
      | ok v =>
        cases v with
        | commit other => rfl
        | symbolic next =>
          have hnext : next = ref := by
            rcases hname with rfl | hname
            · have hhead := (h.value_head ht).symm.trans hv
              split_ifs at hhead
              · exact (Refs.Value.symbolic.inj (Except.ok.inj hhead)).symm
              · cases hhead
            · cases h.value_ref ht hname hv
          exact ih (.inr (hnext ▸ h.ref))

end

/-- Two clones have the same head if the files of refs are read alike. -/
theorem meaning?_eq (h : HasRepository d git place source ref id)
    (h' : HasRepository d' git' place' source ref id)
    (hloose : ∀ name, RefName.IsRef name → Refs.readLoose d git name = Refs.readLoose d' git' name) :
    meaning? d git (octets "HEAD") = meaning? d' git' (octets "HEAD") := by
  obtain ⟨t, t', htable, htable', ht, ht', hpacked⟩ := h.exists_tables h'
  have hid : ∀ name, name = octets "HEAD" ∨ RefName.IsRef name → t.id? name = t'.id? name :=
    fun name hname => by
      rw [Refs.Table.id?, Refs.Table.id?, h.follow_eq_follow h' hloose ht ht' hpacked hname]
  have hfirst : ∀ names : List Octets, (∀ name ∈ names, name = octets "HEAD" ∨ RefName.IsRef name) →
      t.first? names = t'.first? names := by
    intro names hnames
    induction names with
    | nil => rfl
    | cons name names ih =>
      rw [Refs.Table.first?, Refs.Table.first?, hid name (hnames name List.mem_cons_self),
        ih fun other hother => hnames other (List.mem_cons_of_mem _ hother)]
  have hnames : ∀ name ∈ RefName.expansions (octets "HEAD"),
      name = octets "HEAD" ∨ RefName.IsRef name := by
    rw [RefName.expansions]
    simp only [List.forall_mem_cons]
    refine ⟨.inl trivial, .inr ⟨by decide, forall_mem_of_all (by decide), _, rfl⟩,
      .inr ⟨by decide, forall_mem_of_all (by decide), octets "tags/HEAD", rfl⟩,
      .inr ⟨by decide, forall_mem_of_all (by decide), octets "heads/HEAD", rfl⟩,
      .inr ⟨by decide, forall_mem_of_all (by decide), octets "remotes/HEAD", rfl⟩,
      .inr ⟨by decide, forall_mem_of_all (by decide), octets "remotes/HEAD/HEAD", rfl⟩, by simp⟩
  rw [meaning?, meaning?, htable, htable']
  simp only [bind, Except.bind, hfirst _ hnames]

end HasRepository

end head

end World

end Depot
