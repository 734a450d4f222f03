import Depot.Proofs.Package.Catalog
import Depot.Proofs.Package.Search

/-!
One location of a package, looked up by its name. No two locations of a package have one name, so
the search in a location that is looked up by name is a part of the search for the package.
-/

namespace Depot

variable {σ : Type} {source : Source σ} {answers : String → String → Except Failure Outcome}

namespace Catalog

variable {c : Catalog} {id : TargetId} {ps : List PackageEntry}

/-- What is declared for an id is what a package declares, or nothing. -/
theorem declared_cases (h : ofPackages ps = .ok c) (id : TargetId) :
    c.declared id = [] ∨ ∃ p ∈ ps, c.declared id = p.locations := by
  by_cases hid : ∃ p ∈ ps, TargetId.parse p.id = .ok id
  · right
    obtain ⟨before, p, after, rfl, hp, hafter⟩ := exists_last hid
    exact ⟨p, by simp, declared_of_last hp hafter h⟩
  · left
    have hnone : ∀ p ∈ ps, TargetId.parse p.id ≠ .ok id := by
      intro p hp heq
      exact hid ⟨p, hp, heq⟩
    have hsame := declared_of_declare hnone h
    rw [hsame]
    rfl

/-- A default location is added only if no location has its name. -/
theorem nodup_names_locations (h : ((c.declared id).map (·.name)).Nodup) :
    ((c.locations id).map (·.name)).Nodup := by
  unfold locations
  dsimp only
  split_ifs with hdefault
  · simpa [Function.comp_def] using h
  · have hnew : ∀ l ∈ c.declared id, l.name ≠ Branch.defaultLocation := by
      intro l hl hname
      exact hdefault (List.any_eq_true.mpr ⟨l, hl, decide_eq_true hname⟩)
    rw [List.map_append, List.map_map]
    apply List.Nodup.append
    · simpa [Function.comp_def] using h
    · exact List.nodup_singleton _
    · simpa [Function.comp_def] using hnew

theorem exists_default (c : Catalog) (id : TargetId) :
    ∃ l ∈ c.locations id, l.name = Branch.defaultLocation := by
  unfold locations
  dsimp only
  split_ifs with hdefault
  · obtain ⟨l, hl, hname⟩ := List.any_eq_true.mp hdefault
    exact ⟨⟨id, l.name, l.path⟩, List.mem_map_of_mem hl, of_decide_eq_true hname⟩
  · exact ⟨⟨id, Branch.defaultLocation, id.text⟩, by simp, rfl⟩

theorem location?_name (h : ((c.locations id).map (·.name)).Nodup) {l : Location}
    (hl : l ∈ c.locations id) : c.location? id l.name = some l := by
  unfold location?
  cases hfound : (c.locations id).find? fun k => k.name = l.name with
  | none =>
    have hno := List.find?_eq_none.mp hfound l hl
    simp at hno
  | some k =>
    have hk : k ∈ c.locations id := List.mem_of_find?_eq_some hfound
    have hname : k.name = l.name := by simpa using List.find?_some hfound
    rw [List.inj_on_of_nodup_map h hk hl hname]

/-- What is found in the location of a package that has a name, if one has. -/
def found? (c : Catalog) (id : TargetId) (source : Source σ) (name : String) (s : σ) :
    Option (Except Failure (Option Revision)) :=
  (c.location? id name).map fun l => (l.search source s).2

/-- A search by name in one location after the other finds nothing in those before `l`, and `r` in
`l`. -/
def FirstFound (c : Catalog) (id : TargetId) (source : Source σ) (s : σ) (l : Location)
    (r : Revision) : Prop :=
  ∃ before after, c.locations id = before ++ l :: after ∧
    (∀ k ∈ before, c.found? id source k.name s = some (.ok none)) ∧
    c.found? id source l.name s = some (.ok (some r))

end Catalog

section search

/-- With fixed answers a search finds the same in every state of the source. -/
theorem searchBranches_snd (h : source.Answers answers) (bs : List BranchHandle) (s t : σ) :
    (searchBranches source bs s).2 = (searchBranches source bs t).2 := by
  rw [searchBranches_eq_scan h, searchBranches_eq_scan h]

theorem BranchHandle.revision_snd (h : source.Answers answers) (b : BranchHandle) (s t : σ) :
    (b.revision source s).2 = (b.revision source t).2 := by
  have hs := h b.name b.location.path s
  have ht := h b.name b.location.path t
  unfold revision
  cases Branch.validate b.name with
  | error f => rfl
  | ok u =>
    dsimp only
    rcases hcs : source.checkout b.name b.location.path s with ⟨s', rs⟩
    rcases hct : source.checkout b.name b.location.path t with ⟨t', rt⟩
    rw [hcs] at hs
    rw [hct] at ht
    obtain rfl : rs = rt := hs.trans ht.symm
    cases rs with
    | ok outcome => rfl
    | error f =>
      dsimp only
      split_ifs <;> rfl

/-- A revision is one of the branch that it is looked for on. -/
theorem BranchHandle.branch_of_revision {b : BranchHandle} {s : σ} {r : Revision}
    (h : (b.revision source s).2 = .ok (some r)) : r.branch = b := by
  unfold revision at h
  cases hname : Branch.validate b.name with
  | error f => simp [hname] at h
  | ok u =>
    rw [hname] at h
    dsimp only at h
    rcases hcheckout : source.checkout b.name b.location.path s with ⟨t, f | outcome⟩
    · rw [hcheckout] at h
      dsimp only at h
      split_ifs at h
      cases h
    · rw [hcheckout] at h
      have hr := Option.some.inj (Except.ok.inj h)
      rw [← hr]

/-- What a search finds is the revision of one of its branches. -/
theorem searchBranches_found (h : source.Answers answers) {bs : List BranchHandle} {s : σ}
    {r : Revision} (hr : (searchBranches source bs s).2 = .ok (some r)) :
    r.branch ∈ bs ∧ ∀ t, (r.branch.revision source t).2 = .ok (some r) := by
  induction bs generalizing s with
  | nil => cases hr
  | cons b bs ih =>
    have hrest : ∀ t, (searchBranches source bs t).2 = .ok (some r) →
        r.branch ∈ b :: bs ∧ ∀ t, (r.branch.revision source t).2 = .ok (some r) := by
      intro t ht
      obtain ⟨hmem, hrevision⟩ := ih ht
      exact ⟨List.mem_cons_of_mem _ hmem, hrevision⟩
    unfold searchBranches at hr
    rcases hb : b.revision source s with ⟨t, f | _ | r'⟩
    · rw [hb] at hr
      cases hr
    · rw [hb] at hr
      exact hrest t hr
    · rw [hb] at hr
      dsimp only at hr
      split_ifs at hr
      · obtain rfl := Option.some.inj (Except.ok.inj hr)
        have hsnd : (b.revision source s).2 = .ok (some r') := congrArg Prod.snd hb
        have hbranch := BranchHandle.branch_of_revision hsnd
        rw [hbranch]
        refine ⟨List.mem_cons_self, fun u => ?_⟩
        rw [BranchHandle.revision_snd h b u s]
        exact hsnd
      · exact hrest t hr

/-- Something is found in the first location that does not come to nothing. -/
theorem searchLocations_eq_some_iff (h : source.Answers answers) {ls : List Location}
    {r : Revision} (s t : σ) :
    (searchLocations source ls s).2 = .ok (some r) ↔
      ∃ before l after, ls = before ++ l :: after ∧
        (∀ k ∈ before, (k.search source t).2 = .ok none) ∧
        (l.search source t).2 = .ok (some r) := by
  induction ls generalizing s with
  | nil =>
    constructor
    · intro hr
      cases hr
    · rintro ⟨before, l, after, hls, -⟩
      simp at hls
  | cons l ls ih =>
    have hsame : (l.search source t).2 = (l.search source s).2 := searchBranches_snd h _ t s
    unfold searchLocations
    rcases hl : l.search source s with ⟨u, f | _ | r'⟩
    · have hfail : (l.search source t).2 = .error f := by rw [hsame, hl]
      constructor
      · intro hr
        cases hr
      · rintro ⟨_ | ⟨k, before⟩, l', after, hls, hbefore, hr⟩
        · obtain ⟨rfl, rfl⟩ := List.cons.inj hls
          cases hfail.symm.trans hr
        · obtain ⟨rfl, rfl⟩ := List.cons.inj hls
          cases hfail.symm.trans (hbefore l List.mem_cons_self)
    · have hnone : (l.search source t).2 = .ok none := by rw [hsame, hl]
      dsimp only
      rw [ih u]
      constructor
      · rintro ⟨before, l', after, rfl, hbefore, hr⟩
        exact ⟨l :: before, l', after, rfl, List.forall_mem_cons.mpr ⟨hnone, hbefore⟩, hr⟩
      · rintro ⟨_ | ⟨k, before⟩, l', after, hls, hbefore, hr⟩
        · obtain ⟨rfl, rfl⟩ := List.cons.inj hls
          cases hnone.symm.trans hr
        · obtain ⟨rfl, rfl⟩ := List.cons.inj hls
          exact ⟨before, l', after, rfl, (List.forall_mem_cons.mp hbefore).2, hr⟩
    · have hsome : (l.search source t).2 = .ok (some r') := by rw [hsame, hl]
      dsimp only
      constructor
      · intro hr
        exact ⟨[], l, ls, rfl, by simp, hsome.trans hr⟩
      · rintro ⟨_ | ⟨k, before⟩, l', after, hls, hbefore, hr⟩
        · obtain ⟨rfl, rfl⟩ := List.cons.inj hls
          exact hsome.symm.trans hr
        · obtain ⟨rfl, rfl⟩ := List.cons.inj hls
          cases hsome.symm.trans (hbefore l List.mem_cons_self)

/-- Where no two locations have one name, the search for a package is a search by name. -/
theorem Catalog.search_eq_some_iff {c : Catalog} {id : TargetId} (h : source.Answers answers)
    (hnames : ((c.locations id).map (·.name)).Nodup) {r : Revision} (s t : σ) :
    (c.search id source s).2 = .ok (some r) ↔ ∃ l, c.FirstFound id source t l r := by
  have hfound : ∀ l ∈ c.locations id, c.found? id source l.name t = some (l.search source t).2 := by
    intro l hl
    unfold found?
    rw [location?_name hnames hl]
    rfl
  rw [Catalog.search, searchLocations_eq_some_iff h s t]
  constructor
  · rintro ⟨before, l, after, hls, hbefore, hr⟩
    refine ⟨l, before, after, hls, fun k hk => ?_, ?_⟩
    · rw [hfound k (by simp [hls, hk]), hbefore k hk]
    · rw [hfound l (by simp [hls]), hr]
  · rintro ⟨l, before, after, hls, hbefore, hr⟩
    refine ⟨before, l, after, hls, fun k hk => ?_, ?_⟩
    · exact Option.some.inj ((hfound k (by simp [hls, hk])).symm.trans (hbefore k hk))
    · exact Option.some.inj ((hfound l (by simp [hls])).symm.trans hr)

/-- What is found first is a revision of a branch of its location. -/
theorem Catalog.FirstFound.branch_mem {c : Catalog} {id : TargetId} {l : Location} {r : Revision}
    {s : σ} (hl : c.FirstFound id source s l r) (h : source.Answers answers)
    (hnames : ((c.locations id).map (·.name)).Nodup) :
    r.branch ∈ l.branches ∧ ∀ t, (r.branch.revision source t).2 = .ok (some r) := by
  obtain ⟨before, after, hls, -, hr⟩ := hl
  unfold found? at hr
  rw [location?_name hnames (by simp [hls])] at hr
  exact searchBranches_found h (Option.some.inj hr)

/-- The branches of a location belong to it. -/
theorem Location.location_of_mem_branches {l : Location} {b : BranchHandle} (h : b ∈ l.branches) :
    b.location = l := by
  obtain ⟨name, -, rfl⟩ := List.mem_map.mp h
  rfl

/-- Settings that keep the rules make a catalog in which every package has locations with names of
their own, one of them the default. The search for a package finds what the search in the first
location finds, looked up by name, in which anything is found; and what it finds is a revision of
one of the branches of that location, which is found on that branch again. -/
theorem Settings.search_eq_some_iff_firstFound {s : Settings} (hvalid : s.validate = .ok ())
    (h : source.Answers answers) :
    ∃ c, Catalog.ofPackages s.packages = .ok c ∧ ∀ id : TargetId,
      ((c.locations id).map (·.name)).Nodup ∧
      (∃! l, l ∈ c.locations id ∧ l.name = Branch.defaultLocation) ∧
      ∀ (r : Revision) (t u : σ),
        ((c.search id source t).2 = .ok (some r) ↔ ∃ l, c.FirstFound id source u l r) ∧
        ∀ l, c.FirstFound id source u l r →
          r.branch.location = l ∧ r.branch ∈ l.branches ∧
            (r.branch.revision source t).2 = .ok (some r) := by
  obtain ⟨hpackages, -⟩ := Settings.validate_eq_ok.mp hvalid
  obtain ⟨c, hc⟩ : ∃ c, Catalog.ofPackages s.packages = .ok c :=
    Catalog.declare_ok fun p hp => (hpackages p hp).id
  refine ⟨c, hc, fun id => ?_⟩
  have hdeclared : ((c.declared id).map (·.name)).Nodup := by
    rcases Catalog.declared_cases hc id with hnone | ⟨p, hp, heq⟩
    · simp [hnone]
    · rw [heq]
      exact (hpackages p hp).nodup
  have hnames := Catalog.nodup_names_locations hdeclared
  refine ⟨hnames, ?_, fun r t u => ⟨Catalog.search_eq_some_iff h hnames t u, fun l hl => ?_⟩⟩
  · obtain ⟨l, hl, hdefault⟩ := Catalog.exists_default c id
    refine ⟨l, ⟨hl, hdefault⟩, fun k hk => ?_⟩
    exact List.inj_on_of_nodup_map hnames hk.1 hl (hk.2.trans hdefault.symm)
  · obtain ⟨hmem, hrevision⟩ := hl.branch_mem h hnames
    exact ⟨Location.location_of_mem_branches hmem, hmem, hrevision t⟩

/-- A package with a location in which nothing can be found. -/
def parted : Settings where
  repository := []
  cacheRoot := []
  logFormat := "text"
  packages := [⟨"p", [⟨"a b", "x"⟩]⟩]

/-- What is found in the default location of the package is found for the package. -/
theorem Settings.search_eq_some_iff_firstFound_parted :
    parted.validate = .ok () ∧
      sparse.Answers (fun branch path => (sparse.checkout branch path ()).2) ∧
      ∃ c r, Catalog.ofPackages parted.packages = .ok c ∧
        (c.search ⟨"p"⟩ sparse ()).2 = .ok (some r) ∧
        c.FirstFound ⟨"p"⟩ sparse () ⟨⟨"p"⟩, "default", "p"⟩ r := by
  have hvalid : parted.validate = .ok () := by decide
  have h : sparse.Answers fun branch path => (sparse.checkout branch path ()).2 := fun _ _ _ => rfl
  obtain ⟨c, hc, hparts⟩ := Settings.search_eq_some_iff_firstFound hvalid h
  obtain ⟨-, -, hsearch⟩ := hparts ⟨"p"⟩
  have hcatalog : Catalog.ofPackages parted.packages = .ok ⟨[(⟨"p"⟩, [⟨"a b", "x"⟩])]⟩ := by
    decide
  obtain rfl := Except.ok.inj (hcatalog.symm.trans hc)
  let r : Revision := ⟨⟨⟨⟨"p"⟩, "default", "p"⟩, "p/main"⟩, ⟨"c2"⟩, some ⟨"h"⟩⟩
  have hr : ((Catalog.mk [(⟨"p"⟩, [⟨"a b", "x"⟩])]).search ⟨"p"⟩ sparse ()).2 = .ok (some r) := by
    decide
  obtain ⟨hiff, hfirst⟩ := hsearch r () ()
  obtain ⟨l, hl⟩ := hiff.mp hr
  obtain ⟨rfl, -⟩ := hfirst l hl
  exact ⟨hvalid, h, _, r, hc, hr, hl⟩

end search

end Depot
