import Depot.Proofs.Checkout.Constancy
import Depot.Proofs.Checkout.Locking

/-!
What the checkouts for one key share. If no build fails and branches are there and stay where they are
while they are checked out, one of them builds and all of them answer what it has found. Nothing need
move for this to go wrong where there is no branch of the name: what is resolved and what is cloned
are then different refs, and the outcome is remembered for a key that nobody asks for. A lock is left
in the table only by a checkout that took it and then found that there was nothing more to build.
-/

namespace Depot

open Files

namespace Stand

/-- A checkout for a key is on its way to the answer of the memo, or has it. -/
def Answers (c : Cache) (key : CheckoutKey) (σ : Stand) : Prop :=
  σ.key? = some key ∨ ∃ archive, c.get? key = some archive ∧
    (σ = .leaves (.ok ⟨key.commit, archive⟩) ∨ σ = .gone (.ok ⟨key.commit, archive⟩))

theorem Answers.key_eq {c : Cache} {key key' : CheckoutKey} {σ : Stand} (h : σ.Answers c key)
    (hkey : σ.key? = some key') : key' = key := by
  rcases h with h | ⟨_, -, rfl | rfl⟩
  · exact Option.some.inj (hkey.symm.trans h)
  · cases hkey
  · cases hkey

namespace Turn

variable {me : Nat} {c c' : Cache} {h h' : Held Nat} {σ σ' : Stand} {key : CheckoutKey}
  {lock : LockId}

/-- Who has a lock keeps it until there is nothing to build or the lock has left the table. -/
theorem uses_cases (ht : Turn me c h σ c' h' σ') (huses : σ.Uses key lock) :
    σ'.Uses key lock ∨ (∃ archive, σ = checks key lock ∧ c.get? key = some archive) ∨
      c'.lock? key = none := by
  cases ht with
  | idle => exact .inl huses
  | take | lack | record | fail => exact .inl huses
  | found hget =>
    obtain ⟨rfl, rfl⟩ := huses
    exact .inr (.inl ⟨_, rfl, hget⟩)
  | finish =>
    obtain ⟨rfl, rfl⟩ := huses
    exact .inr (.inr Cache.lock?_dropLock_self)
  | _ => exact huses.elim

end Turn

end Stand

namespace Desk

/-- Whoever has a lock need not wait for another. -/
def IsOpen (d : Desk) : Prop := ∀ pair ∈ d.held.pairs, (d.stand pair.2).IsFree

/-- A build that has ended has found its branch at the commit of its key. -/
def IsClean (d : Desk) : Prop := ∀ me key lock result, d.stand me = .ends key lock result →
  ∃ archive, result = .ok ⟨key.commit, archive⟩

/-- What holds at all times if all builds are clean. -/
structure IsSettled (d : Desk) : Prop where
  guards : d.Guards
  agrees : ∀ key, d.Agrees key
  excludes : ∀ key, d.Excludes key
  fresh : ∀ me key lock, d.stand me = .builds key lock → d.cache.get? key = none
  recalled : ∀ me key lock outcome, d.stand me = .ends key lock (.ok outcome) →
    d.cache.get? key = some outcome.archive

namespace Step

variable {d d' : Desk}

theorem isOpen (h : d.Step d') (hd : d.IsOpen) : d'.IsOpen := by
  obtain ⟨me, σ, hturn, hstand⟩ := h
  intro pair hmem
  rw [hstand]
  by_cases hne : pair.2 = me
  · rw [hne, Function.update_self]
    have hold : pair ∈ d.held.pairs → (d.stand me).IsFree := fun hmem => hne ▸ hd pair hmem
    generalize d.stand me = τ at hturn hold
    generalize d.cache = c, d'.cache = c', d.held = h, d'.held = h' at hturn hold hmem
    cases hturn with
    | idle => exact hold hmem
    | release => exact absurd hne (Held.mem_release hmem).2
    | take | found | lack | record | fail | finish => exact trivial
    | _ => exact (hold hmem).elim
  · rw [Function.update_of_ne hne]
    refine hd pair ?_
    generalize d.stand me = τ at hturn
    generalize d.cache = c, d'.cache = c', d.held = h, d'.held = h' at hturn hmem ⊢
    cases hturn with
    | take hfree =>
      rcases Held.mem_of_acquire? hfree hmem with hmem | rfl
      · exact hmem
      · exact absurd rfl hne
    | release => exact (Held.mem_release hmem).1
    | _ => exact hmem

/-- Either nothing new is remembered and no build has ended well, or a build is recorded for the key
it was made for. -/
theorem record_cases (h : d.Step d') (hclean : d'.IsClean) :
    ((∀ key, d'.cache.get? key = d.cache.get? key) ∧
        ∀ other key lock outcome, d'.stand other = .ends key lock (.ok outcome) →
          d.stand other = .ends key lock (.ok outcome)) ∨
      ∃ me key lock archive, d.stand me = .builds key lock ∧
        d'.cache = d.cache.insert key archive ∧
        d'.stand = Function.update d.stand me (.ends key lock (.ok ⟨key.commit, archive⟩)) := by
  obtain ⟨me, σ, hturn, hstand⟩ := h
  have hends : ∀ key lock result, σ = .ends key lock result →
      ∃ archive, result = .ok ⟨key.commit, archive⟩ := fun key lock result hσ =>
    hclean me key lock result (by rw [hstand, Function.update_self, hσ])
  have hother : (∀ key lock outcome, σ = .ends key lock (.ok outcome) →
      d.stand me = .ends key lock (.ok outcome)) → ∀ other key lock outcome,
        d'.stand other = .ends key lock (.ok outcome) →
        d.stand other = .ends key lock (.ok outcome) := by
    intro hme other key lock outcome hends
    rw [hstand] at hends
    by_cases hne : other = me
    · subst hne
      rw [Function.update_self] at hends
      exact hme key lock outcome hends
    · rwa [Function.update_of_ne hne] at hends
  generalize hτ : d.stand me = τ at hturn hother
  generalize hc : d.cache = c, d'.cache = c', d.held = h, d'.held = h' at hturn ⊢
  cases hturn with
  | record key lock outcome =>
    obtain ⟨archive, harchive⟩ := hends key lock _ rfl
    obtain rfl := Except.ok.inj harchive
    exact .inr ⟨me, key, lock, archive, hτ, rfl, hstand⟩
  | fail key lock f =>
    obtain ⟨archive, harchive⟩ := hends key lock _ rfl
    cases harchive
  | ask => exact .inl ⟨fun key => Cache.get?_lockFor, hother nofun⟩
  | idle => exact .inl ⟨fun _ => rfl, hother fun _ _ _ h => h⟩
  | _ => exact .inl ⟨fun _ => rfl, hother nofun⟩

/-- What is remembered does not change. -/
theorem get?_eq (h : d.Step d') (hclean : d'.IsClean) (hd : d.IsSettled) {key : CheckoutKey}
    {archive : Option ArchiveHash} (hget : d.cache.get? key = some archive) :
    d'.cache.get? key = some archive := by
  rcases h.record_cases hclean with ⟨hsame, -⟩ | ⟨me, key', lock, archive', hbuilds, hcache, -⟩
  · rw [hsame, hget]
  · have hne : key ≠ key' := by
      rintro rfl
      rw [hd.fresh me key lock hbuilds] at hget
      cases hget
    rw [hcache, Cache.get?_insert_ne hne, hget]

theorem isSettled (h : d.Step d') (hclean : d.IsClean) (hclean' : d'.IsClean) (hd : d.IsSettled) :
    d'.IsSettled := by
  have hwaste : ∀ key, ¬ d.Wastes key := by
    rintro key ⟨hnone, me, lock, result, hends⟩
    obtain ⟨archive, rfl⟩ := hclean me key lock result hends
    rw [hd.recalled me key lock _ hends] at hnone
    cases hnone
  have hexcludes : ∀ key, d'.Excludes key := fun key =>
    h.excludes hd.guards (hd.agrees key) (hd.excludes key)
  refine ⟨h.guards hd.guards, fun key => h.agrees (hwaste key) (hd.agrees key), hexcludes, ?_, ?_⟩
  · intro other key lock hbuilds
    have hold : d.cache.get? key = none := by
      obtain ⟨me, σ, hturn, hstand⟩ := h
      rw [hstand] at hbuilds
      by_cases hne : other = me
      · subst hne
        rw [Function.update_self] at hbuilds
        subst hbuilds
        rcases hturn.of_builds with hσ | ⟨-, hnone⟩
        · exact hd.fresh other key lock hσ
        · exact hnone
      · rw [Function.update_of_ne hne] at hbuilds
        exact hd.fresh other key lock hbuilds
    rcases h.record_cases hclean' with ⟨hsame, -⟩ | ⟨me, key', lock', archive, hme, hcache, hstand⟩
    · rw [hsame]
      exact hold
    · have hne : key ≠ key' := by
        rintro rfl
        rw [hstand] at hbuilds
        by_cases hother : other = me
        · rw [hother, Function.update_self] at hbuilds
          cases hbuilds
        · rw [Function.update_of_ne hother] at hbuilds
          exact hother (hd.excludes key other me lock lock' hbuilds hme)
      rw [hcache, Cache.get?_insert_ne hne]
      exact hold
  · intro other key lock outcome hends
    rcases h.record_cases hclean' with ⟨hsame, hsame'⟩ | ⟨me, key', lock', archive, hme, hcache, hstand⟩
    · rw [hsame]
      exact hd.recalled other key lock outcome (hsame' other key lock outcome hends)
    · rw [hstand] at hends
      by_cases hne : other = me
      · subst hne
        rw [Function.update_self] at hends
        obtain ⟨rfl, -, hresult⟩ := Stand.ends.inj hends
        obtain rfl := Except.ok.inj hresult
        rw [hcache, Cache.get?_insert_self]
      · rw [Function.update_of_ne hne] at hends
        exact h.get?_eq hclean' hd (hd.recalled other key lock outcome hends)

/-- A build goes on, or has left its outcome in the memo. -/
theorem builds_or (h : d.Step d') (hclean : d'.IsClean) {me : Nat} {key : CheckoutKey} {lock : LockId}
    (hme : d.stand me = .builds key lock) :
    d'.stand me = .builds key lock ∨ d'.cache.get? key ≠ none := by
  rcases h.record_cases hclean with ⟨-, hends⟩ | ⟨who, key', lock', archive, hwho, hcache, hstand⟩
  · obtain ⟨who, σ, hturn, hstand⟩ := h
    have hends := hends me
    have hclean := hclean me
    rw [hstand] at hends hclean ⊢
    by_cases hne : me = who
    · subst hne
      rw [Function.update_self] at hends hclean ⊢
      rw [hme] at hturn hends
      generalize d.cache = c, d'.cache = c', d.held = h, d'.held = h' at *
      cases hturn with
      | idle => exact .inl rfl
      | record _ _ outcome => cases hends key lock outcome rfl
      | fail _ _ f =>
        obtain ⟨archive, hresult⟩ := hclean key lock (.error f) rfl
        cases hresult
    · rw [Function.update_of_ne hne]
      exact .inl hme
  · by_cases hne : me = who
    · subst hne
      obtain ⟨rfl, -⟩ := Stand.builds.inj (hme.symm.trans hwho)
      rw [hcache, Cache.get?_insert_self]
      exact .inr nofun
    · rw [hstand, Function.update_of_ne hne]
      exact .inl hme

/-- A checkout that has a key comes to the answer of the memo. -/
theorem answers (h : d.Step d') (hclean : d.IsClean) (hclean' : d'.IsClean) (hd : d.IsSettled)
    {key : CheckoutKey} {me : Nat} (hme : (d.stand me).Answers d.cache key) :
    (d'.stand me).Answers d'.cache key := by
  have hget : ∀ archive, d.cache.get? key = some archive → d'.cache.get? key = some archive :=
    fun _ => h.get?_eq hclean' hd
  have hkeep : (d.stand me).Answers d'.cache key := by
    rcases hme with hkey | ⟨archive, hfound, hσ⟩
    · exact .inl hkey
    · exact .inr ⟨archive, hget archive hfound, hσ⟩
  obtain ⟨who, σ, hturn, hstand⟩ := h
  rw [hstand]
  by_cases hne : me = who
  · subst hne
    rw [Function.update_self]
    have hends := hclean me
    have hrecalled := hd.recalled me
    generalize d.stand me = τ at hturn hkeep hends hrecalled
    generalize d.cache = c, d'.cache = c', d.held = h, d'.held = h' at *
    cases hturn with
    | idle => exact hkeep
    | hit hfound =>
      obtain rfl := hkeep.key_eq rfl
      exact .inr ⟨_, hget _ hfound, .inr rfl⟩
    | found hfound =>
      obtain rfl := hkeep.key_eq rfl
      exact .inr ⟨_, hget _ hfound, .inl rfl⟩
    | finish key' lock result =>
      obtain rfl := hkeep.key_eq rfl
      obtain ⟨archive, rfl⟩ := hends key' lock result rfl
      exact .inr ⟨archive, hget _ (hrecalled key' lock _ rfl), .inl rfl⟩
    | release result =>
      rcases hkeep with hkey | ⟨archive, hfound, hσ | hσ⟩
      · cases hkey
      · obtain rfl := Stand.leaves.inj hσ
        exact .inr ⟨archive, hfound, .inr rfl⟩
      · cases hσ
    | refuse | come =>
      rcases hkeep with hkey | ⟨_, -, hσ | hσ⟩
      · cases hkey
      · cases hσ
      · cases hσ
    | miss | ask | take | lack | record | fail => exact .inl (congrArg some (hkeep.key_eq rfl))
  · rw [Function.update_of_ne hne]
    exact hkeep

end Step

end Desk

namespace Phase

/-- As far as it has found out, its branch is at the commit of its key. -/
def IsSteady : Phase → Prop
  | strip build | locate build | openWorkspace build _ | openSource build _ | copy build _ _
  | hash build _ | share build _ _ | publish build _ _ => build.commit = build.job.key.commit
  | discard job _ result | remember job result | finish job result =>
    ∀ outcome, result = .ok outcome → outcome.commit = job.key.commit
  | _ => True

variable {site : Site} {me : Nat} {w w' : World} {b b' : Builder} {p p' : Phase}

theorem isSteady_step (h : p.step site me w b = (w', b', p')) (hp : p.IsSteady)
    (hhead : ∀ build, p' = strip build → build.commit = build.job.key.commit) : p'.IsSteady := by
  cases p
  case discard job scratches result =>
    cases scratches <;> obtain ⟨-, -, rfl⟩ := Prod.mk.inj h <;> exact hp
  case remember job result =>
    cases result <;> obtain ⟨-, -, rfl⟩ := Prod.mk.inj h <;> exact hp
  case copy build route tasks =>
    cases tasks with
    | nil =>
      obtain ⟨-, -, rfl⟩ := Prod.mk.inj h
      exact hp
    | cons task rest =>
      unfold step at h
      dsimp only at h
      split at h <;> obtain ⟨-, -, rfl⟩ := Prod.mk.inj h
      · exact hp
      · exact nofun
  case locate build =>
    unfold step at h
    dsimp only at h
    split at h <;> obtain ⟨-, -, rfl⟩ := Prod.mk.inj h
    · exact nofun
    · rintro _ ⟨⟩
      exact hp
    · exact hp
  case publish build workspace hash =>
    unfold step at h
    dsimp only at h
    split at h <;> obtain ⟨-, -, rfl⟩ := Prod.mk.inj h
    · rintro _ ⟨⟩
      exact hp
    · exact nofun
  case readHead job scratch =>
    unfold step at h
    dsimp only at h
    split at h <;> obtain ⟨-, -, rfl⟩ := Prod.mk.inj h
    · exact nofun
    · exact hhead _ rfl
  case strip | openWorkspace | openSource | hash | share =>
    unfold step at h
    dsimp only at h
    split at h <;> obtain ⟨-, -, rfl⟩ := Prod.mk.inj h
    all_goals first | exact hp | exact nofun
  case makeDirs | openScratch | clone =>
    unfold step at h
    dsimp only at h
    split at h <;> obtain ⟨-, -, rfl⟩ := Prod.mk.inj h
    all_goals first | exact trivial | exact nofun
  all_goals
    unfold step at h
    dsimp only at h
    repeat' split at h
    all_goals
      obtain ⟨-, -, rfl⟩ := Prod.mk.inj h
      exact trivial

theorem isSteady_failed {f : Failure} (h : p.failed? f = some p') : p'.IsSteady := by
  cases p
  case start | prepare | resolve =>
    obtain rfl := Option.some.inj h
    exact trivial
  case makeDirs | openScratch | clone | readHead | strip | locate | openWorkspace | openSource | copy
    | hash | share | publish =>
    obtain rfl := Option.some.inj h
    exact nofun
  all_goals cases h

end Phase

/-- The checkouts of a builder after one checkout has gone on. -/
theorem System.cases_of_update {checkout : Nat → Option (Nat × Phase)} {me other b c : Nat}
    {p q : Phase} (h : Function.update checkout me (some (b, p)) other = some (c, q)) :
    other = me ∧ c = b ∧ q = p ∨ checkout other = some (c, q) := by
  by_cases hne : other = me
  · subst hne
    rw [Function.update_self] at h
    obtain ⟨rfl, rfl⟩ := Prod.mk.inj (Option.some.inj h)
    exact .inl ⟨rfl, rfl, rfl⟩
  · rw [Function.update_of_ne hne] at h
    exact .inr h

namespace Run

variable {site : Site} {seat : Seat} {run : Run site seat} {b : Nat}

section clean

variable (hsteady : ∀ n me build, (run.state n).checkout me = some (b, .strip build) →
  build.commit = build.job.key.commit)

include hsteady

theorem isSteady {n me : Nat} {p : Phase} (hme : (run.state n).checkout me = some (b, p)) :
    p.IsSteady := by
  induction n generalizing me p with
  | zero =>
    rw [run.initial.checkouts me] at hme
    cases hme
  | succ n ih =>
    have hstep := run.step n
    have hhead : ∀ build, p = .strip build → build.commit = build.job.key.commit := by
      rintro build rfl
      exact hsteady (n + 1) me build hme
    generalize run.state (n + 1) = s' at hstep hme
    cases hstep with
    | launch branch path hnone =>
      rcases System.cases_of_update hme with ⟨-, -, rfl⟩ | hold
      · exact trivial
      · exact ih hold
    | advance h hstep =>
      rcases System.cases_of_update hme with ⟨rfl, rfl, rfl⟩ | hold
      · exact Phase.isSteady_step hstep (ih h) hhead
      · exact ih hold
    | fail f h hfail =>
      rcases System.cases_of_update hme with ⟨-, -, rfl⟩ | hold
      · exact Phase.isSteady_failed hfail
      · exact ih hold
    | leave h =>
      rcases System.cases_of_update hme with ⟨rfl, rfl, rfl⟩ | hold
      · exact fun outcome ho => ih h outcome ho
      · exact ih hold
    | outside => exact ih hme

/-- If moreover no build fails, every build that ends is clean. -/
theorem isClean (hgood : ∀ n me job f, (run.state n).checkout me ≠ some (b, .finish job (.error f)))
    (n : Nat) : ((run.state n).desk b).IsClean := by
  intro me key lock result hends
  obtain ⟨p, hme, hp⟩ := System.checkout_of_stand hends nofun
  obtain ⟨job, rfl, rfl⟩ := Phase.eq_finish_of_stand hp
  cases result with
  | error f => exact absurd hme (hgood n me job f)
  | ok outcome =>
    have hcommit := run.isSteady hsteady hme outcome rfl
    exact ⟨outcome.archive, by rw [← hcommit]⟩

end clean

section settled

variable (hclean : ∀ n, ((run.state n).desk b).IsClean)

include hclean

theorem isSettled (n : Nat) : ((run.state n).desk b).IsSettled := by
  induction n with
  | zero =>
    have hstand := fun me => run.stand_zero b me
    refine ⟨run.guards 0 b, fun key => ?_, fun key => ?_, fun me key lock h => ?_,
      fun me key lock outcome h => ?_⟩
    · exact (run.excludes fun _ hi => absurd hi (Nat.not_lt_zero _)).1
    · exact (run.excludes fun _ hi => absurd hi (Nat.not_lt_zero _)).2
    · rw [hstand me] at h
      cases h
    · rw [hstand me] at h
      cases h
  | succ n ih => exact ((run.step n).desk b).isSettled (hclean n) (hclean (n + 1)) ih

theorem get?_eq {key : CheckoutKey} {archive : Option ArchiveHash} {i n : Nat} (hi : i ≤ n)
    (hget : ((run.state i).builder b).cache.get? key = some archive) :
    ((run.state n).builder b).cache.get? key = some archive := by
  induction n, hi using Nat.le_induction with
  | base => exact hget
  | succ n _ ih => exact ((run.step n).desk b).get?_eq (hclean (n + 1)) (isSettled hclean n) ih

theorem answers {key : CheckoutKey} {me i n : Nat} (hi : i ≤ n)
    (hkey : (((run.state i).desk b).stand me).key? = some key) :
    (((run.state n).desk b).stand me).Answers ((run.state n).builder b).cache key := by
  induction n, hi using Nat.le_induction with
  | base => exact .inl hkey
  | succ n _ ih =>
    exact ((run.step n).desk b).answers (hclean n) (hclean (n + 1)) (isSettled hclean n) ih

/-- Who builds for a key is the only one ever. -/
theorem eq_of_builds {key : CheckoutKey} {me other : Nat} {lock lock' : LockId} {i j : Nat}
    (hij : i ≤ j) (hme : ((run.state i).desk b).stand me = .builds key lock)
    (hother : ((run.state j).desk b).stand other = .builds key lock') : me = other := by
  have hnone := (isSettled hclean j).fresh other key lock' hother
  have hstill : ∀ n, i ≤ n → ((run.state n).desk b).stand me = .builds key lock ∨
      ((run.state n).desk b).cache.get? key ≠ none := by
    intro n hi
    induction n, hi using Nat.le_induction with
    | base => exact .inl hme
    | succ n _ ih =>
      rcases ih with hbuilds | hsome
      · exact ((run.step n).desk b).builds_or (hclean (n + 1)) hbuilds
      · obtain ⟨archive, hget⟩ := Option.ne_none_iff_exists'.mp hsome
        rw [((run.step n).desk b).get?_eq (hclean (n + 1)) (isSettled hclean n) hget]
        exact .inr nofun
  exact (isSettled hclean j).excludes key me other lock lock'
    ((hstill j hij).resolve_right fun h => h hnone) hother

/-- The answer of a checkout for a key is what is remembered for it. -/
theorem answer_of_done {key : CheckoutKey} {me i n : Nat} {p : Phase}
    {result : Except Failure Outcome} (hi : i ≤ n) (hme : (run.state i).checkout me = some (b, p))
    (hkey : p.key? = some key) (hdone : (run.state n).checkout me = some (b, .done result)) :
    ∃ archive, ((run.state n).builder b).cache.get? key = some archive ∧
      result = .ok ⟨key.commit, archive⟩ := by
  have hanswers := answers hclean hi (by rw [System.stand_desk hme]; exact hkey)
  rw [System.stand_desk hdone] at hanswers
  rcases hanswers with hkey | ⟨archive, hget, hσ | hσ⟩
  · cases hkey
  · cases hσ
  · exact ⟨archive, hget, Stand.gone.inj hσ⟩

end settled

/-- A checkout that waits for a lock waits for one that goes on. -/
theorem isOpen (hnew : ((run.state 0).builder b).held.pairs = []) (n : Nat) :
    ((run.state n).desk b).IsOpen := by
  induction n with
  | zero =>
    intro pair hmem
    rw [show ((run.state 0).desk b).held = ((run.state 0).builder b).held from rfl, hnew] at hmem
    cases hmem
  | succ n ih => exact ((run.step n).desk b).isOpen ih

/-- In a run in which no build fails, and in which each branch is there and stays at one commit from
when a checkout asks for it until it clones it, no two checkouts of one builder ever build for one key,
all of them that return have the same outcome, and none waits for a lock whose holder waits too. -/
theorem builds_once (hroom : seat.HasRoom) (hnew : ((run.state 0).builder b).held.pairs = [])
    (hgood : ∀ n me job f, (run.state n).checkout me ≠ some (b, .finish job (.error f)))
    (hkeeps : run.KeepsBranches b) (key : CheckoutKey) :
    (∀ i j me other p q, (run.state i).checkout me = some (b, p) →
      (run.state j).checkout other = some (b, q) → p.isBuilding = true → q.isBuilding = true →
      p.key? = some key → q.key? = some key → me = other) ∧
    (∃ archive, ∀ i n me p result, i ≤ n → (run.state i).checkout me = some (b, p) →
      p.key? = some key → (run.state n).checkout me = some (b, .done result) →
      result = .ok ⟨key.commit, archive⟩) ∧
    ∀ n me job, (run.state n).checkout me = some (b, .acquire job) →
      ((run.state n).builder b).held.holder? job.lock = none ∨
      ∃ other q, ((run.state n).builder b).held.holder? job.lock = some other ∧
        (run.state n).checkout other = some (b, q) ∧ q.stand.IsFree := by
  have hclean := run.isClean (fun _ _ _ => commit_of_strip hroom hkeeps) hgood
  refine ⟨fun i j me other p q hme hother hp hq hpkey hqkey => ?_, ?_, fun n me job hme => ?_⟩
  · obtain ⟨lock, hbuilds⟩ := Phase.stand_of_isBuilding hp hpkey
    obtain ⟨lock', hbuilds'⟩ := Phase.stand_of_isBuilding hq hqkey
    have hstand := (System.stand_desk hme).trans hbuilds
    have hstand' := (System.stand_desk hother).trans hbuilds'
    rcases Nat.le_total i j with hij | hji
    · exact eq_of_builds hclean hij hstand hstand'
    · exact (eq_of_builds hclean hji hstand' hstand).symm
  · by_cases hsome : ∃ n archive, ((run.state n).builder b).cache.get? key = some archive
    · obtain ⟨m, archive, hget⟩ := hsome
      refine ⟨archive, fun i n me p result hi hme hkey hdone => ?_⟩
      obtain ⟨archive', hget', hresult⟩ := answer_of_done hclean hi hme hkey hdone
      rcases Nat.le_total m n with hmn | hnm
      · rwa [Option.some.inj ((get?_eq hclean hmn hget).symm.trans hget')]
      · rwa [Option.some.inj (hget.symm.trans (get?_eq hclean hnm hget'))]
    · refine ⟨none, fun i n me p result hi hme hkey hdone => ?_⟩
      obtain ⟨archive, hget, -⟩ := answer_of_done hclean hi hme hkey hdone
      exact absurd ⟨n, archive, hget⟩ hsome
  · cases hholder : ((run.state n).builder b).held.holder? job.lock with
    | none => exact .inl rfl
    | some other =>
      have hfree := run.isOpen hnew n _ (World.mem_of_assoc? hholder)
      obtain ⟨q, hother, hq⟩ := System.checkout_of_stand rfl fun hapart => by
        rw [hapart] at hfree
        exact hfree
      exact .inr ⟨other, q, rfl, hother, hq ▸ hfree⟩

/-- Before some time a checkout held a lock of a key and found that its outcome was remembered. -/
def FindsDone (run : Run site seat) (b n : Nat) (key : CheckoutKey) (lock : LockId) : Prop :=
  ∃ i < n, ∃ me job archive, (run.state i).checkout me = some (b, .lookAgain job) ∧ job.key = key ∧
    job.lock = lock ∧ ((run.state i).builder b).cache.get? key = some archive

/-- A lock in the table is one that a checkout has, or had when there was nothing more to build. -/
theorem uses_or_findsDone (hnew : ((run.state 0).builder b).cache.locks = []) {n : Nat}
    {key : CheckoutKey} {lock : LockId}
    (hlock : ((run.state n).builder b).cache.lock? key = some lock) :
    (∃ me, (((run.state n).desk b).stand me).Uses key lock) ∨ run.FindsDone b n key lock := by
  induction n with
  | zero =>
    rw [Cache.lock?, hnew] at hlock
    cases hlock
  | succ n ih =>
    have hlater : run.FindsDone b n key lock → run.FindsDone b (n + 1) key lock := by
      rintro ⟨i, hi, hfinds⟩
      exact ⟨i, Nat.lt_succ_of_lt hi, hfinds⟩
    obtain ⟨me, σ, hturn, hstand⟩ := (run.step n).desk b
    have hkept : ((run.state n).builder b).cache.lock? key = some lock →
        (∃ me, (((run.state (n + 1)).desk b).stand me).Uses key lock) ∨
          run.FindsDone b (n + 1) key lock := by
      intro hlock'
      rcases ih hlock' with ⟨who, huses⟩ | hfinds
      · by_cases hne : who = me
        · subst hne
          rcases hturn.uses_cases huses with huses' | ⟨archive, hchecks, hget⟩ | hnone
          · exact .inl ⟨who, by rw [hstand, Function.update_self]; exact huses'⟩
          · obtain ⟨p, hwho, hp⟩ := System.checkout_of_stand hchecks (by simp)
            obtain ⟨job, rfl, hkey, hlock⟩ := Phase.eq_lookAgain_of_stand hp
            exact .inr ⟨n, n.lt_succ_self, who, job, archive, hwho, hkey, hlock, hget⟩
          · exact absurd (hlock.symm.trans hnone) (Option.some_ne_none _)
        · exact .inl ⟨who, by rw [hstand, Function.update_of_ne hne]; exact huses⟩
      · exact .inr (hlater hfinds)
    rcases hturn.lock?_cases key with ⟨hsame, -⟩ | ⟨-, hcache, hσ⟩ | ⟨_, _, -, hcache, -⟩
    · exact hkept (hsame ▸ hlock)
    · refine .inl ⟨me, ?_⟩
      have hlock : ((run.state (n + 1)).desk b).cache.lock? key = some lock := hlock
      rw [hcache, Cache.lock?_lockFor_self] at hlock
      rw [hstand, Function.update_self, hσ]
      exact ⟨rfl, Option.some.inj hlock⟩
    · have hlock : ((run.state (n + 1)).desk b).cache.lock? key = some lock := hlock
      rw [hcache, Cache.lock?_dropLock_self] at hlock
      cases hlock

/-- When all checkouts of a builder have returned, each lock that is left is one that a checkout took
to find that there was nothing more to build; so no lock is left unless that has happened. -/
theorem inFlight_of_done (hnew : ((run.state 0).builder b).cache.locks = []) {n : Nat}
    (hdone : ∀ me p, (run.state n).checkout me = some (b, p) → ∃ result, p = .done result) :
    (∀ key lock, ((run.state n).builder b).cache.lock? key = some lock →
        run.FindsDone b n key lock) ∧
      (((run.state n).builder b).cache.inFlight = 0 ∨ ∃ key lock, run.FindsDone b n key lock) := by
  have hleft : ∀ key lock, ((run.state n).builder b).cache.lock? key = some lock →
      run.FindsDone b n key lock := by
    intro key lock hlock
    refine (uses_or_findsDone hnew hlock).resolve_left ?_
    rintro ⟨me, huses⟩
    obtain ⟨p, hme, hp⟩ := System.checkout_of_stand rfl fun hapart => by
      rw [hapart] at huses
      exact huses
    obtain ⟨result, rfl⟩ := hdone me p hme
    rw [← hp] at huses
    exact huses
  refine ⟨hleft, ?_⟩
  cases hlocks : ((run.state n).builder b).cache.locks with
  | nil => exact .inl (congrArg List.length hlocks)
  | cons pair rest =>
    refine .inr ⟨pair.1, pair.2, hleft _ _ ?_⟩
    rw [Cache.lock?, hlocks]
    exact if_pos rfl

end Run

/-! A checkout looks into the memo and finds nothing. Before it asks for the lock, another one does
all its work. -/

namespace Late

open Solo

def calls : List Call :=
  .launch 1 "x" "." :: List.replicate 4 (.go 1) ++
    (.launch 0 "x" "." :: List.replicate 25 (.go 0) ++ List.replicate 4 (.go 1))

theorem isReady (b : Nat) :
    ((System.alone site "x" "." (world [] 0) idle 0).builder b).isReady = true := rfl

theorem forgotten (b : Nat) (key : CheckoutKey) :
    ((System.alone site "x" "." (world [] 0) idle 0).builder b).cache.get? key = none := rfl

def run : Run site seat := .scheduled isInitial isReady forgotten calls

/-- What the builder keeps when both checkouts are done. -/
def kept : Builder := { done with cache := { done.cache with locks := [(key, 1)], fresh := 2 } }

def asking : System :=
  ⟨world [] 0, Function.update (fun _ => idle) 0 idle,
    Function.update (fun _ => none) 1 (some (0, .askLock "x" key))⟩

def finished : System :=
  ⟨world (cache [] [] published) 2, Function.update asking.builder 0 done,
    Function.update asking.checkout 0 (some (0, .done (.ok outcome)))⟩

def ended : System :=
  ⟨world (cache [] [] published) 2, Function.update finished.builder 0 kept,
    Function.update finished.checkout 1 (some (0, .done (.ok outcome)))⟩

theorem after_look : ((System.alone site "x" "." (world [] 0) idle 0).after site
    (.launch 1 "x" "." :: List.replicate 4 (.go 1))) = asking :=
  System.after_launch rfl (by decide)

theorem after_work : asking.after site (.launch 0 "x" "." :: List.replicate 25 (.go 0)) = finished :=
  System.after_launch rfl run_eq

theorem after_lock : finished.after site (List.replicate 4 (.go 1)) = ended := by
  have hme : finished.checkout 1 = some (0, .askLock "x" key) := rfl
  exact System.after_go hme (by decide)

theorem state_run : run.state 35 = ended := by
  have hcalls : calls.take 35 = calls := rfl
  show (System.alone site "x" "." (world [] 0) idle 0).after site (calls.take 35) = ended
  rw [hcalls, calls, System.after_append, after_look, System.after_append, after_work, after_lock]

/-- The lock of the second checkout is left. It had found that the outcome was remembered. -/
theorem inFlight_of_done_late : ((run.state 35).builder 0).cache.inFlight = 1 ∧
    ∃ key lock, run.FindsDone 0 35 key lock := by
  have hcount : ((run.state 35).builder 0).cache.inFlight = 1 := by
    rw [state_run]
    rfl
  have hdone : ∀ me p, (run.state 35).checkout me = some (0, p) → ∃ result, p = .done result := by
    intro me p hme
    rw [state_run] at hme
    simp only [ended, finished, asking, Function.update_apply] at hme
    split_ifs at hme
    all_goals
      obtain ⟨-, rfl⟩ := Prod.mk.inj (Option.some.inj hme)
      exact ⟨_, rfl⟩
  refine ⟨hcount, (Run.inFlight_of_done rfl hdone).2.resolve_left fun hzero => ?_⟩
  rw [hcount] at hzero
  cases hzero

def cacheOf (w : World) : Entries := ((w.disk.root.get? [[0x63]]).map Node.children).getD []

/-- A checkout that asks for no branch but `x` and does not end a failed build. -/
def isGood : Phase → Bool
  | .finish _ (.error _) => false
  | .resolve branch _ => branch = "x"
  | _ => true

def isSame (w : World) : Bool := w = world (cacheOf w) w.scratches

theorem isSame_world (cache : Entries) (scratches : Nat) : isSame (world cache scratches) = true :=
  decide_eq_true rfl

/-- All is as it should be at some point of a checkout. -/
abbrev IsPlain (s : World × Builder × Phase) : Prop := isSame s.1 = true ∧ isGood s.2.2 = true

/-- The steps of the checkout that does all the work. -/
abbrev Plain := Phase.Leg site 0 IsPlain

namespace Plain

def early : Plain (world [] 0, idle, .start "x" ".") (before, building, .clone job scratch) :=
  ⟨9, (Stretch.lock.trans (Stretch.makeDirs.trans Stretch.openScratch)).run, by decide +kernel⟩

def late : Plain (cloning clone, building, .strip build)
    (world (cache [] [] published) 2, done, .done (.ok outcome)) :=
  ⟨14, (Stretch.strip.trans <| Stretch.copy.trans <| Stretch.hashStep.trans <|
    Stretch.publish.trans <| Stretch.discard.trans Stretch.remember).run, by decide +kernel⟩

def work : Plain (world [] 0, idle, .start "x" ".")
    (world (cache [] [] published) 2, done, .done (.ok outcome)) :=
  early.trans <| (Phase.Leg.one Stretch.cloneStep.run ⟨isSame_world _ _, rfl⟩
    ⟨isSame_world _ _, rfl⟩).trans <| (Phase.Leg.one Stretch.headStep.run ⟨isSame_world _ _, rfl⟩
      ⟨isSame_world _ _, rfl⟩).trans late

end Plain

theorem isPlain_run : ∀ k ≤ 25, IsPlain (Phase.run site 0 k (world [] 0) idle (.start "x" ".")) :=
  Plain.work.holds

theorem isFair_start :
    (System.alone site "x" "." (world [] 0) idle 0).IsFair isSame isGood :=
  ⟨isSame_world _ _, fun _ _ _ h => absurd h (by rintro ⟨⟩)⟩

theorem isFair_asking : asking.IsFair isSame isGood :=
  isFair_start.update (isSame_world [] 0) rfl _

theorem isFair_finished : finished.IsFair isSame isGood :=
  isFair_asking.update (isSame_world _ 2) rfl _

theorem along_calls :
    (System.alone site "x" "." (world [] 0) idle 0).Along site isSame isGood calls := by
  refine (System.along_launch isFair_start rfl (by decide +kernel)).append ?_
  rw [after_look]
  refine (System.along_launch isFair_asking rfl isPlain_run).append ?_
  rw [after_work]
  have hme : finished.checkout 1 = some (0, .askLock "x" key) := rfl
  exact System.along_go isFair_finished hme (by decide +kernel)

theorem isAt_world (cache : Entries) (scratches : Nat) :
    (world cache scratches).IsAt site.repository "x" commit := by
  let t : Refs.Table := ⟨(world cache scratches).disk, site.repository, []⟩
  have htable : Refs.table (world cache scratches).disk site.repository = .ok t := rfl
  have href : (world cache scratches).RefAt site.repository (RefName.ofBranch "x") (some commit) :=
    ⟨t, some id, htable, rfl, rfl⟩
  refine ⟨fun dir hdir => ?_, fun source hsource => ?_⟩
  · have hfound : Repository.find? (world cache scratches).disk site.repository =
      some site.repository := rfl
    obtain rfl := Option.some.inj (hfound.symm.trans hdir)
    exact href
  · have hfound : World.cloneSource? (world cache scratches).disk site.repository =
      some site.repository := rfl
    obtain rfl := Option.some.inj (hfound.symm.trans hsource)
    refine ⟨href, fun t' names htable' hnames => ?_⟩
    obtain rfl := Except.ok.inj (htable.symm.trans htable')
    have hloose : t.looseNames Disk.pathLimit (octets "refs/heads") = .ok [(ref, true)] := rfl
    rw [Refs.Table.names, hloose] at hnames
    obtain rfl := Except.ok.inj hnames
    simp [ref, RefName.ofBranch]

theorem keepsBranches : run.KeepsBranches 0 := by
  intro i n me branch key hi hasks hclones
  obtain ⟨path, hresolve⟩ := hasks.1
  obtain rfl : branch = "x" := of_decide_eq_true ((along_calls i).2 me 0 _ hresolve)
  refine ⟨commit, fun j _ _ => ?_⟩
  have hworld : run.world j = world (cacheOf (run.world j)) (run.world j).scratches :=
    of_decide_eq_true (along_calls j).1
  rw [hworld]
  exact isAt_world _ _

theorem checkout_looked : (run.state 5).checkout 1 = some (0, .askLock "x" key) ∧
    (run.state 10).checkout 0 = some (0, .askLock "x" key) := by
  have hlook : run.state 5 = asking := after_look
  have hwork : run.state 10 = asking.after site (.launch 0 "x" "." :: List.replicate 4 (.go 0)) := by
    rw [← after_look, ← System.after_append]
    rfl
  rw [hlook, hwork, System.after_launch rfl rfl]
  exact ⟨rfl, by decide⟩

/-- Both have looked up one key, and have the same outcome. -/
theorem builds_once_late : ∃ archive,
    (run.state 35).checkout 0 = some (0, .done (.ok ⟨key.commit, archive⟩)) ∧
      (run.state 35).checkout 1 = some (0, .done (.ok ⟨key.commit, archive⟩)) := by
  have hgood : ∀ n me job f, (run.state n).checkout me ≠ some (0, .finish job (.error f)) :=
    fun n me job f h => Bool.noConfusion ((along_calls n).2 me 0 _ h)
  have hroom : seat.HasRoom := by
    unfold Seat.HasRoom
    decide
  obtain ⟨-, ⟨archive, hsame⟩, -⟩ := run.builds_once hroom rfl hgood keepsBranches key
  have hfirst : (run.state 35).checkout 0 = some (0, .done (.ok outcome)) := by
    rw [state_run]
    rfl
  have hsecond : (run.state 35).checkout 1 = some (0, .done (.ok outcome)) := by
    rw [state_run]
    rfl
  have hresult := hsame 10 35 0 _ _ (by decide) checkout_looked.2 rfl hfirst
  have hresult' := hsame 5 35 1 _ _ (by decide) checkout_looked.1 rfl hsecond
  exact ⟨archive, hresult ▸ hfirst, hresult' ▸ hsecond⟩

end Late

/-! There is a branch `refs/heads/x` and a tag `x`, but no branch `x`. Who asks for the branch `x` is
told the commit of the first, and clones the second. -/

namespace Namesake

open Solo (site seat scratch cloneScratch place idle isInitial_beside)

def otherId : Octets := List.replicate 40 'b'

def tagged : CommitId := ⟨String.ofList otherId⟩

def tag : Octets := octets "refs/tags/x"

def repository : Node := .dir 0o755 [
  (Repository.headName, .file 0o644 (Utf8.ofString "ref: refs/heads/x\n")),
  (Objects.objectsName, .dir 0o755 [
    (Utf8.ofString "aa", .dir 0o755 [(List.replicate 38 0x61, .file 0o444 [])]),
    (Utf8.ofString "bb", .dir 0o755 [(List.replicate 38 0x62, .file 0o444 [])])]),
  (Repository.refsName, .dir 0o755 [
    (Utf8.ofString "heads", .dir 0o755 [(Repository.refsName, .dir 0o755 [
      (Utf8.ofString "heads", .dir 0o755 [
        (Utf8.ofString "x", .file 0o644 (Octets.toBytes (Solo.id ++ ['\n'])))])])]),
    (Utf8.ofString "tags", .dir 0o755 [
      (Utf8.ofString "x", .file 0o644 (Octets.toBytes (otherId ++ ['\n'])))])])]

def world (cache : Entries) (scratches : Nat) : World where
  disk := { root := .dir 0o755 [([0x63], .dir 0o755 cache), ([0x72], repository)] }
  commits := [(Solo.commit, ⟨[], []⟩), (tagged, ⟨[], []⟩)]
  scratches := scratches

def cloning (es : Entries) : World :=
  world (Solo.cache [(cloneScratch.name, .dir 0o700 es)] [] []) 1

def clone : Node := .dir 0o755 (Entries.insert Repository.gitName
  (.dir 0o755 (World.cloneRepository site.repository tag otherId)) [])

/-- The key that both checkouts build for. It is of the commit of the branch. -/
def key : CheckoutKey := ⟨Solo.commit, "d"⟩
def job : Job := ⟨"x", key, 0⟩
def build : Build := ⟨job, scratch, tagged⟩

def locked (lock : LockId) (me : Nat) (entries : List (CheckoutKey × Option ArchiveHash)) :
    Builder where
  cache := { entries := entries, locks := [(key, lock)], fresh := lock + 1 }
  held := ⟨[(lock, me)]⟩
  isReady := true

/-- What is remembered of the first build is not for its key. -/
def done : Builder := { cache := { entries := [(⟨tagged, "d"⟩, none)], fresh := 1 }, isReady := true }

def outcome : Outcome := ⟨tagged, none⟩

theorem clone_eq : History.clone site.repository "x" (Build.checkout scratch) (cloning []) =
    (cloning [(Phase.checkoutName, clone)], .ok ()) := by
  have hsource : World.cloneSource? (cloning []).disk site.repository = some site.repository := by
    decide +kernel
  have hfree : World.isFree (cloning []).disk (Build.checkout scratch) = true := by decide +kernel
  have habove : ((Path.parent? (Build.checkout scratch)).bind fun dir =>
      ((cloning []).disk.makeDirs dir).toOption).getD (cloning []).disk = (cloning []).disk := by
    decide +kernel
  have hmade : (cloning []).disk.makeDirs (Build.checkout scratch) =
      .ok (cloning [(Phase.checkoutName, .dir 0o755 [])]).disk := by decide +kernel
  have hloc : (cloning [(Phase.checkoutName, .dir 0o755 [])]).disk.locate (Build.checkout scratch) =
      .ok (place, .dir 0o755 []) := by decide +kernel
  have hfound : World.branchOrTag? (cloning []).disk site.repository "x" =
      .ok (some (tag, otherId)) := by decide +kernel
  have hknows : (cloning []).knows site.repository otherId = true := by decide +kernel
  have hobjects : Objects.areIn (cloning [(Phase.checkoutName, .dir 0o755 [])]).disk
      site.repository [] = true := by decide +kernel
  have htree : WorkTree.ofTree? [] = some [] := by decide
  have hclone := World.clone_eq (w := cloning []) hsource hfree habove hmade hloc hfound hknows rfl
    hobjects htree
  exact History.clone_of_code rfl (by decide +kernel) hclone rfl

theorem head_eq : History.head (Build.checkout scratch) (cloning [(Phase.checkoutName, clone)]) =
    (cloning [(Phase.checkoutName, clone)], .ok tagged) := by
  have hsound : (cloning [(Phase.checkoutName, clone)]).disk.root.IsSound := by decide +kernel
  have hmissing : Refs.readLoose (cloning [(Phase.checkoutName, clone)]).disk
      (Path.below (Disk.pathOf place) [Repository.gitName]) tag = .error .missing := by
    decide +kernel
  have href : RefName.IsRef tag :=
    ⟨by decide, forall_mem_of_all (by decide), octets "tags/x", by decide⟩
  have hid : Refs.IsId otherId := by
    refine ⟨rfl, fun c hc => ?_⟩
    rw [List.eq_of_mem_replicate hc]
    decide
  exact History.head_eq_of_locate hsound rfl (by decide) rfl (by decide) href hid rfl hmissing

def cacheOf (w : World) : Entries := ((w.disk.root.get? [[0x63]]).map Node.children).getD []

def isSame (w : World) : Bool := w = world (cacheOf w) w.scratches

/-- A checkout that does not end a failed build. -/
def isGood : Phase → Bool
  | .finish _ (.error _) => false
  | _ => true

abbrev IsPlain (s : World × Builder × Phase) : Prop := isSame s.1 = true ∧ isGood s.2.2 = true

theorem isSame_world (cache : Entries) (scratches : Nat) : isSame (world cache scratches) = true :=
  decide_eq_true rfl

abbrev Plain (me : Nat) := Phase.Leg site me IsPlain

namespace Plain

/-- The first checkout is told the commit of the branch and makes a scratch directory. -/
def early : Plain 0 (world [] 0, idle, .start "x" "d") (cloning [], locked 0 0 [], .clone job scratch) :=
  ⟨9, by decide +kernel, by decide +kernel⟩

def strip : Plain 0 (cloning [(Phase.checkoutName, clone)], locked 0 0 [], .strip build)
    (cloning [(Phase.checkoutName, .dir 0o755 [])], locked 0 0 [], .locate build) :=
  ⟨1, by decide +kernel, by decide +kernel⟩

def locate : Plain 0 (cloning [(Phase.checkoutName, .dir 0o755 [])], locked 0 0 [], .locate build)
    (cloning [(Phase.checkoutName, .dir 0o755 [])], locked 0 0 [],
      .discard job [scratch] (.ok outcome)) :=
  ⟨1, by decide +kernel, by decide +kernel⟩

def discard : Plain 0 (cloning [(Phase.checkoutName, .dir 0o755 [])], locked 0 0 [],
      .discard job [scratch] (.ok outcome))
    (world (Solo.cache [] [] []) 1, locked 0 0 [], .remember job (.ok outcome)) :=
  ⟨2, by decide +kernel, by decide +kernel⟩

def remember : Plain 0 (world (Solo.cache [] [] []) 1, locked 0 0 [], .remember job (.ok outcome))
    (world (Solo.cache [] [] []) 1, done, .done (.ok outcome)) :=
  ⟨3, by decide +kernel, by decide +kernel⟩

def again : Plain 1 (world (Solo.cache [] [] []) 1, done, .start "x" "d")
    (world (Solo.cache [] [] []) 1, locked 1 1 done.cache.entries, .makeDirs ⟨"x", key, 1⟩) :=
  ⟨7, by decide +kernel, by decide +kernel⟩

def cloneStep : Plain 0 (cloning [], locked 0 0 [], .clone job scratch)
    (cloning [(Phase.checkoutName, clone)], locked 0 0 [], .readHead job scratch) :=
  .one ((Phase.run_one ..).trans (Phase.clone_step 0 _ clone_eq)) ⟨isSame_world _ _, rfl⟩
    ⟨isSame_world _ _, rfl⟩

def headStep : Plain 0 (cloning [(Phase.checkoutName, clone)], locked 0 0 [], .readHead job scratch)
    (cloning [(Phase.checkoutName, clone)], locked 0 0 [], .strip build) :=
  .one ((Phase.run_one ..).trans (Phase.readHead_step 0 _ head_eq)) ⟨isSame_world _ _, rfl⟩
    ⟨isSame_world _ _, rfl⟩

def work : Plain 0 (world [] 0, idle, .start "x" "d")
    (world (Solo.cache [] [] []) 1, done, .done (.ok outcome)) :=
  early.trans <| cloneStep.trans <| headStep.trans <| strip.trans <| locate.trans <|
    discard.trans remember

end Plain

def calls : List Call := .launch 0 "x" "d" :: List.replicate 18 (.go 0) ++
  .launch 1 "x" "d" :: List.replicate 7 (.go 1)

theorem isInitial : (System.alone site "x" "d" (world [] 0) idle 0).IsInitial site seat :=
  isInitial_beside (by decide +kernel) (List.forall_mem_cons.mpr ⟨World.isSound_empty 0o755,
    List.forall_mem_singleton.mpr (World.isSound_empty 0o755)⟩) "x" "d"

def run : Run site seat := .scheduled isInitial (fun _ => rfl) (fun _ _ => rfl) calls

theorem isPlain_run :
    ∀ k ≤ 18, IsPlain (Phase.run site 0 k (world [] 0) idle (.start "x" "d")) :=
  Plain.work.holds

theorem run_eq : Phase.run site 0 18 (world [] 0) idle (.start "x" "d") =
    (world (Solo.cache [] [] []) 1, done, .done (.ok outcome)) := Plain.work.run

theorem early_eq : Phase.run site 0 9 (world [] 0) idle (.start "x" "d") =
    (cloning [], locked 0 0 [], .clone job scratch) := Plain.early.run

theorem again_eq : Phase.run site 1 7 (world (Solo.cache [] [] []) 1) done (.start "x" "d") =
    (world (Solo.cache [] [] []) 1, locked 1 1 done.cache.entries, .makeDirs ⟨"x", key, 1⟩) :=
  Plain.again.run

def finished : System :=
  ⟨world (Solo.cache [] [] []) 1, Function.update (fun _ => idle) 0 done,
    Function.update (fun _ => none) 0 (some (0, .done (.ok outcome)))⟩

theorem after_work : (System.alone site "x" "d" (world [] 0) idle 0).after site
    (.launch 0 "x" "d" :: List.replicate 18 (.go 0)) = finished :=
  System.after_launch rfl run_eq

theorem isFair_start :
    (System.alone site "x" "d" (world [] 0) idle 0).IsFair isSame isGood :=
  ⟨isSame_world _ _, fun _ _ _ h => absurd h (by rintro ⟨⟩)⟩

theorem isFair_finished : finished.IsFair isSame isGood :=
  isFair_start.update (isSame_world _ 1) rfl _

theorem along_calls :
    (System.alone site "x" "d" (world [] 0) idle 0).Along site isSame isGood calls := by
  refine (System.along_launch isFair_start rfl isPlain_run).append ?_
  rw [after_work]
  exact System.along_launch isFair_finished rfl Plain.again.holds

/-- Both checkouts build for the same key, where no build fails and the repository never changes. -/
theorem builds_twice :
    (∀ n, (run.world n).disk.root.get? [[0x72]] = some repository) ∧
      (∀ n me job f, (run.state n).checkout me ≠ some (0, .finish job (.error f))) ∧
      ∃ i j p q, (run.state i).checkout 0 = some (0, p) ∧ (run.state j).checkout 1 = some (0, q) ∧
        p.isBuilding = true ∧ q.isBuilding = true ∧ p.key? = some key ∧ q.key? = some key := by
  refine ⟨fun n => ?_, fun n me job f h => Bool.noConfusion ((along_calls n).2 me 0 _ h), ?_⟩
  · obtain hworld : run.world n = world (cacheOf (run.world n)) (run.world n).scratches :=
      of_decide_eq_true (along_calls n).1
    generalize cacheOf (run.world n) = cache, (run.world n).scratches = scratches at hworld
    rw [hworld]
    rfl
  · have hfirst : calls.take 10 = .launch 0 "x" "d" :: List.replicate 9 (.go 0) := rfl
    have hsecond : calls.take 27 = .launch 0 "x" "d" :: List.replicate 18 (.go 0) ++
      .launch 1 "x" "d" :: List.replicate 7 (.go 1) := rfl
    have hclones : run.state 10 = ⟨cloning [], Function.update (fun _ => idle) 0 (locked 0 0 []),
        Function.update (fun _ => none) 0 (some (0, .clone job scratch))⟩ := by
      show (System.alone site "x" "d" (world [] 0) idle 0).after site (calls.take 10) = _
      rw [hfirst]
      exact System.after_launch rfl early_eq
    have hmakes : run.state 27 = ⟨finished.world,
        Function.update finished.builder 0 (locked 1 1 done.cache.entries),
        Function.update finished.checkout 1 (some (0, .makeDirs ⟨"x", key, 1⟩))⟩ := by
      show (System.alone site "x" "d" (world [] 0) idle 0).after site (calls.take 27) = _
      rw [hsecond, System.after_append, after_work]
      exact System.after_launch rfl again_eq
    refine ⟨10, 27, .clone job scratch, .makeDirs ⟨"x", key, 1⟩, ?_, ?_, rfl, rfl, rfl, rfl⟩
    · simp only [hclones, Function.update_self]
    · simp only [hmakes, Function.update_self]

end Namesake

end Depot
