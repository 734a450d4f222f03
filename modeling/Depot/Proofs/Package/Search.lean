import Depot.Package.Search
import Mathlib.Tactic.Common

/-!
The search for a package as one scan. Locations and their branches make up one list of candidates;
those with usable names are asked for one after the other, up to the first answer that decides.
-/

namespace Depot

variable {σ : Type}

namespace Source

/-- The source has one answer for each branch and path, whatever it was asked before. -/
def Answers (source : Source σ) (answers : String → String → Except Failure Outcome) : Prop :=
  ∀ branch path s, (source.checkout branch path s).2 = answers branch path

/-- The state of a source after checkouts of branches and paths. -/
def after (source : Source σ) (s : σ) (calls : List (String × String)) : σ :=
  calls.foldl (fun s call => (source.checkout call.1 call.2 s).1) s

/-- The source with a list of the checkouts it was asked for. -/
def recorded (source : Source σ) : Source (σ × List (String × String)) where
  checkout branch path s :=
    (((source.checkout branch path s.1).1, s.2 ++ [(branch, path)]),
      (source.checkout branch path s.1).2)
  archive := source.archive

variable {source : Source σ}

theorem Answers.recorded {answers : String → String → Except Failure Outcome}
    (h : source.Answers answers) : source.recorded.Answers answers :=
  fun branch path s => h branch path s.1

theorem after_recorded (s : σ) (calls more : List (String × String)) :
    source.recorded.after (s, calls) more = (source.after s more, calls ++ more) := by
  induction more generalizing s calls with
  | nil => simp [after]
  | cons call more ih =>
    have hrest := ih (source.checkout call.1 call.2 s).1 (calls ++ [call])
    rw [List.append_assoc] at hrest
    exact hrest

end Source

namespace BranchHandle

/-- The checkout that a branch is asked for with. -/
def call (b : BranchHandle) : String × String := (b.name, b.location.path)

/-- The name is one that branches can have. -/
def isUsable (b : BranchHandle) : Bool := (Branch.validate b.name).isOk

/-- What the answer for a branch decides. That there is no such branch, or no archive on it, decides
nothing. -/
def decision? (b : BranchHandle) : Except Failure Outcome → Option (Except Failure Revision)
  | .ok ⟨commit, some hash⟩ => some (.ok ⟨b, commit, some hash⟩)
  | .ok ⟨_, none⟩ => none
  | .error f => if f.isBranchNotFound then none else some (.error f)

end BranchHandle

/-- A scan of candidates with known answers: those it asks for, and what is decided in the end. -/
structure Scan where
  answers : String → String → Except Failure Outcome
  candidates : List BranchHandle

namespace Scan

def decision? (scan : Scan) (b : BranchHandle) : Option (Except Failure Revision) :=
  b.decision? (scan.answers b.name b.location.path)

def usable (scan : Scan) : List BranchHandle := scan.candidates.filter BranchHandle.isUsable

/-- The checkouts of usable branches up to the first that decides. -/
def calls (scan : Scan) : List (String × String) :=
  (scan.usable.take (scan.usable.findIdx (fun b => (scan.decision? b).isSome) + 1)).map
    BranchHandle.call

/-- The first decision, if there is one. -/
def result (scan : Scan) : Except Failure (Option Revision) :=
  match scan.usable.findSome? scan.decision? with
  | some (.ok revision) => .ok (some revision)
  | some (.error f) => .error f
  | none => .ok none

variable (answers : String → String → Except Failure Outcome) {b : BranchHandle}
  (bs : List BranchHandle)

theorem of_unusable (h : b.isUsable = false) :
    calls ⟨answers, b :: bs⟩ = calls ⟨answers, bs⟩ ∧
      result ⟨answers, b :: bs⟩ = result ⟨answers, bs⟩ := by
  have husable : usable ⟨answers, b :: bs⟩ = usable ⟨answers, bs⟩ :=
    List.filter_cons_of_neg (by simp [h])
  exact ⟨by rw [calls, husable]; rfl, by rw [result, husable]; rfl⟩

theorem of_undecided (h : b.isUsable = true)
    (hnone : b.decision? (answers b.name b.location.path) = none) :
    calls ⟨answers, b :: bs⟩ = b.call :: calls ⟨answers, bs⟩ ∧
      result ⟨answers, b :: bs⟩ = result ⟨answers, bs⟩ := by
  have husable : usable ⟨answers, b :: bs⟩ = b :: usable ⟨answers, bs⟩ :=
    List.filter_cons_of_pos h
  constructor
  · rw [calls, husable, List.findIdx_cons, decision?, hnone]
    rfl
  · rw [result, husable, List.findSome?_cons, decision?, hnone]
    rfl

theorem of_decided (h : b.isUsable = true) {r : Except Failure Revision}
    (hsome : b.decision? (answers b.name b.location.path) = some r) :
    calls ⟨answers, b :: bs⟩ = [b.call] ∧
      result ⟨answers, b :: bs⟩ = some <$> r := by
  have husable : usable ⟨answers, b :: bs⟩ = b :: usable ⟨answers, bs⟩ :=
    List.filter_cons_of_pos h
  constructor
  · rw [calls, husable, List.findIdx_cons, decision?, hsome]
    rfl
  · rw [result, husable, List.findSome?_cons, decision?, hsome]
    cases r <;> rfl

end Scan

section search
variable {source : Source σ} {answers : String → String → Except Failure Outcome}

/-- The search among some branches goes on with the rest only if nothing was found. -/
theorem searchBranches_append (source : Source σ) (bs cs : List BranchHandle) (s : σ) :
    searchBranches source (bs ++ cs) s =
      match searchBranches source bs s with
      | (s, .ok none) => searchBranches source cs s
      | found => found := by
  induction bs generalizing s with
  | nil => rfl
  | cons b bs ih =>
    rw [List.cons_append, searchBranches, searchBranches]
    rcases b.revision source s with ⟨t, f | _ | r⟩
    · rfl
    · exact ih t
    · dsimp only
      by_cases harchive : r.archive.isSome = true
      · rw [if_pos harchive, if_pos harchive]
      · rw [if_neg harchive, if_neg harchive]
        exact ih t

/-- Two loops make one. -/
theorem searchLocations_eq (source : Source σ) (ls : List Location) (s : σ) :
    searchLocations source ls s = searchBranches source (ls.flatMap Location.branches) s := by
  induction ls generalizing s with
  | nil => rfl
  | cons l ls ih =>
    rw [List.flatMap_cons, searchBranches_append, searchLocations, Location.search]
    rcases searchBranches source l.branches s with ⟨t, f | _ | r⟩
    · rfl
    · exact ih t
    · rfl

/-- A usable branch is asked for once, and its answer decides or leaves it to the rest. -/
theorem searchBranches_cons (source : Source σ) (b : BranchHandle) (bs : List BranchHandle) (s : σ) :
    searchBranches source (b :: bs) s =
      if b.isUsable then
        match b.decision? (source.checkout b.name b.location.path s).2 with
        | none => searchBranches source bs (source.after s [b.call])
        | some r => (source.after s [b.call], some <$> r)
      else searchBranches source bs s := by
  rw [searchBranches, BranchHandle.revision, BranchHandle.isUsable]
  cases Branch.validate b.name with
  | error f => rfl
  | ok u =>
    rw [Source.after, List.foldl_cons, List.foldl_nil, BranchHandle.call,
      if_pos (show (Except.ok u : Except Failure Unit).isOk = true from rfl)]
    rcases source.checkout b.name b.location.path s with ⟨t, f | ⟨commit, _ | hash⟩⟩
    · by_cases hmissing : f.isBranchNotFound = true
      · simp only [hmissing, if_true, BranchHandle.decision?]
      · simp only [hmissing, BranchHandle.decision?]
        rfl
    · rfl
    · rfl

theorem searchBranches_eq_scan (h : source.Answers answers) (bs : List BranchHandle) (s : σ) :
    searchBranches source bs s =
      (source.after s (Scan.calls ⟨answers, bs⟩), Scan.result ⟨answers, bs⟩) := by
  induction bs generalizing s with
  | nil => rfl
  | cons b bs ih =>
    rw [searchBranches_cons, h]
    by_cases husable : b.isUsable = true
    · rw [if_pos husable]
      cases hdecision : b.decision? (answers b.name b.location.path) with
      | none =>
        obtain ⟨hcalls, hresult⟩ := Scan.of_undecided answers bs husable hdecision
        rw [hcalls, hresult]
        exact ih _
      | some r =>
        obtain ⟨hcalls, hresult⟩ := Scan.of_decided answers bs husable hdecision
        rw [hcalls, hresult]
    · obtain ⟨hcalls, hresult⟩ := Scan.of_unusable answers bs (by simpa using husable)
      rw [if_neg husable, hcalls, hresult]
      exact ih s

/-- The branches of all locations of a package, with known answers. -/
def Catalog.scan (c : Catalog) (id : TargetId)
    (answers : String → String → Except Failure Outcome) : Scan :=
  ⟨answers, (c.locations id).flatMap Location.branches⟩

/-- The search for a package finds what the scan of the branches of all its locations finds. It asks
for the checkouts that the scan asks for, in their order, and for no other. -/
theorem Catalog.search_eq_scan (h : source.Answers answers) (c : Catalog) (id : TargetId) (s : σ) :
    c.search id source s =
        (source.after s (c.scan id answers).calls, (c.scan id answers).result) ∧
      c.search id source.recorded (s, []) =
        ((source.after s (c.scan id answers).calls, (c.scan id answers).calls),
          (c.scan id answers).result) := by
  constructor
  · rw [search, searchLocations_eq, searchBranches_eq_scan h]
    rfl
  · rw [search, searchLocations_eq, searchBranches_eq_scan h.recorded, Source.after_recorded]
    rfl

end search

/-- A source that never changes. One branch has an archive, and one has none. -/
def sparse : Source Unit where
  checkout branch _ s :=
    if branch = "main" then (s, .ok ⟨⟨"c1"⟩, none⟩)
    else if branch = "p/main" then (s, .ok ⟨⟨"c2"⟩, some ⟨"h"⟩⟩)
    else (s, .error (.branchNotFound branch))
  archive h := ⟨h, []⟩

/-- No branch of a location with a blank in its name is asked for. -/
theorem Catalog.search_eq_scan_sparse :
    sparse.Answers (fun branch path => (sparse.checkout branch path ()).2) ∧
      (Catalog.mk [(⟨"p"⟩, [⟨"a b", "x"⟩, ⟨"c", "y"⟩])]).search ⟨"p"⟩ sparse.recorded ((), []) =
        (((), [("location/c/main", "y"), ("p/location/c/main", "y"), ("main", "p"), ("p/main", "p")]),
          .ok (some ⟨⟨⟨⟨"p"⟩, "default", "p"⟩, "p/main"⟩, ⟨"c2"⟩, some ⟨"h"⟩⟩)) := by
  have h : sparse.Answers fun branch path => (sparse.checkout branch path ()).2 := fun _ _ _ => rfl
  refine ⟨h, (Catalog.search_eq_scan h _ _ ()).2.trans ?_⟩
  decide

end Depot
