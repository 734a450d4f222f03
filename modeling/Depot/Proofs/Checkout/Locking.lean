import Depot.Proofs.Checkout.Provenance
import Depot.Proofs.Checkout.Schedule

/-!
What the checkouts of one builder do with the memo and with the locks. A lock has one holder at a
time. The lock of a key is in the table until a build for the key has ended; whoever comes later
gets a new one, and as long as all builds leave their outcome in the memo, nobody builds under it.
-/

namespace Depot

namespace Cache

variable {c : Cache} {key other : CheckoutKey}

theorem get?_insert_self (archive : Option ArchiveHash) : (c.insert key archive).get? key = some archive :=
  assoc?_assocSet_self key archive c.entries

theorem get?_insert_ne (h : other ≠ key) (archive : Option ArchiveHash) :
    (c.insert key archive).get? other = c.get? other := assoc?_assocSet_ne h archive c.entries

theorem get?_lockFor : (c.lockFor key).2.get? other = c.get? other :=
  congrArg (assoc? other) (entries_lockFor c key)

def lock? (c : Cache) (key : CheckoutKey) : Option LockId := assoc? key c.locks

theorem lock?_lockFor_self : (c.lockFor key).2.lock? key = some (c.lockFor key).1 := by
  unfold lockFor
  split
  · assumption
  · exact assoc?_assocSet_self ..

theorem lock?_lockFor_ne (h : other ≠ key) : (c.lockFor key).2.lock? other = c.lock? other := by
  unfold lockFor
  split
  · rfl
  · exact assoc?_assocSet_ne h ..

theorem lockFor_of_lock? {lock : LockId} (h : c.lock? key = some lock) :
    c.lockFor key = (lock, c) := by
  rw [lock?] at h
  simp [lockFor, h]

theorem lock?_dropLock_self : (c.dropLock key).lock? key = none := assoc?_assocErase_self key c.locks

theorem lock?_dropLock_ne (h : other ≠ key) : (c.dropLock key).lock? other = c.lock? other :=
  assoc?_assocErase_ne h c.locks

end Cache

namespace Held

variable {h h' : Held Nat} {lock other : LockId} {me : Nat}

def holder? (h : Held Nat) (lock : LockId) : Option Nat := assoc? lock h.pairs

theorem holder?_of_acquire? (ha : h.acquire? lock me = some h') (other : LockId) :
    h.holder? lock = none ∧ h'.holder? other = if other = lock then some me else h.holder? other := by
  unfold acquire? at ha
  split at ha
  · cases ha
  · next hfree =>
    obtain rfl := Option.some.inj ha
    exact ⟨hfree, rfl⟩

theorem holder?_release {who : Nat} (hholder : h.holder? lock = some who) (hne : who ≠ me) :
    (h.release me).holder? lock = some who := by
  obtain ⟨pairs⟩ := h
  simp only [holder?, release] at hholder ⊢
  induction pairs with
  | nil => cases hholder
  | cons pair pairs ih =>
    obtain ⟨lock', who'⟩ := pair
    rw [assoc?] at hholder
    split_ifs at hholder with hlock
    · obtain rfl := Option.some.inj hholder
      simp [hne, assoc?, hlock]
    · rw [List.filter_cons]
      split_ifs
      · rw [assoc?, if_neg hlock]
        exact ih hholder
      · exact ih hholder

theorem mem_of_acquire? (ha : h.acquire? lock me = some h') {pair : LockId × Nat}
    (hmem : pair ∈ h'.pairs) : pair ∈ h.pairs ∨ pair = (lock, me) := by
  unfold acquire? at ha
  split at ha
  · cases ha
  · obtain rfl := Option.some.inj ha
    exact (List.mem_cons.mp hmem).symm

theorem mem_release {pair : LockId × Nat} (hmem : pair ∈ (h.release me).pairs) :
    pair ∈ h.pairs ∧ pair.2 ≠ me := by
  simpa [release] using hmem

end Held

/-- How far a checkout is with the lock of its key. -/
inductive Stand where
  /-- It has no key yet. -/
  | apart
  | looks (key : CheckoutKey)
  | asks (key : CheckoutKey)
  | waits (key : CheckoutKey) (lock : LockId)
  | checks (key : CheckoutKey) (lock : LockId)
  | builds (key : CheckoutKey) (lock : LockId)
  | ends (key : CheckoutKey) (lock : LockId) (result : Except Failure Outcome)
  | leaves (result : Except Failure Outcome)
  | gone (result : Except Failure Outcome)

namespace Stand

def key? : Stand → Option CheckoutKey
  | looks key | asks key | waits key _ | checks key _ | builds key _ | ends key _ _ => some key
  | _ => none

def lock? : Stand → Option LockId
  | waits _ lock | checks _ lock | builds _ lock | ends _ lock _ => some lock
  | _ => none

/-- It was given a lock for a key, and its build, if it makes one, has not been ended. -/
def Uses (key : CheckoutKey) (lock : LockId) : Stand → Prop
  | waits key' lock' | checks key' lock' | builds key' lock' | ends key' lock' _ =>
    key' = key ∧ lock' = lock
  | _ => False

/-- It has taken a lock that it will only give back when it leaves. -/
def Holds (lock : LockId) : Stand → Prop
  | checks _ lock' | builds _ lock' | ends _ lock' _ => lock' = lock
  | _ => False

/-- It need not wait for anybody. -/
def IsFree : Stand → Prop
  | checks .. | builds .. | ends .. | leaves _ => True
  | _ => False

/-- What one step of a checkout does with the memo, the locks and their holders. -/
inductive Turn (me : Nat) : Cache → Held Nat → Stand → Cache → Held Nat → Stand → Prop
  | idle (c : Cache) (h : Held Nat) (σ : Stand) : Turn me c h σ c h σ
  | refuse (c : Cache) (h : Held Nat) (f : Failure) : Turn me c h apart c h (gone (.error f))
  | come (c : Cache) (h : Held Nat) (key : CheckoutKey) : Turn me c h apart c h (looks key)
  | hit {c : Cache} {h : Held Nat} {key : CheckoutKey} {archive : Option ArchiveHash}
    (hget : c.get? key = some archive) :
    Turn me c h (looks key) c h (gone (.ok ⟨key.commit, archive⟩))
  | miss {c : Cache} {h : Held Nat} {key : CheckoutKey} (hget : c.get? key = none) :
    Turn me c h (looks key) c h (asks key)
  | ask (c : Cache) (h : Held Nat) (key : CheckoutKey) :
    Turn me c h (asks key) (c.lockFor key).2 h (waits key (c.lockFor key).1)
  | take {c : Cache} {h h' : Held Nat} {key : CheckoutKey} {lock : LockId}
    (hfree : h.acquire? lock me = some h') : Turn me c h (waits key lock) c h' (checks key lock)
  | found {c : Cache} {h : Held Nat} {key : CheckoutKey} {lock : LockId}
    {archive : Option ArchiveHash} (hget : c.get? key = some archive) :
    Turn me c h (checks key lock) c h (leaves (.ok ⟨key.commit, archive⟩))
  | lack {c : Cache} {h : Held Nat} {key : CheckoutKey} {lock : LockId} (hget : c.get? key = none) :
    Turn me c h (checks key lock) c h (builds key lock)
  | record (c : Cache) (h : Held Nat) (key : CheckoutKey) (lock : LockId) (outcome : Outcome) :
    Turn me c h (builds key lock) (c.insert ⟨outcome.commit, key.path⟩ outcome.archive) h
      (ends key lock (.ok outcome))
  | fail (c : Cache) (h : Held Nat) (key : CheckoutKey) (lock : LockId) (f : Failure) :
    Turn me c h (builds key lock) c h (ends key lock (.error f))
  | finish (c : Cache) (h : Held Nat) (key : CheckoutKey) (lock : LockId)
    (result : Except Failure Outcome) :
    Turn me c h (ends key lock result) (c.dropLock key) h (leaves result)
  | release (c : Cache) (h : Held Nat) (result : Except Failure Outcome) :
    Turn me c h (leaves result) c (h.release me) (gone result)

namespace Turn

variable {me : Nat} {c c' : Cache} {h h' : Held Nat} {σ σ' : Stand} {key : CheckoutKey}
  {lock : LockId}

theorem get?_eq_none (ht : Turn me c h σ c' h' σ') (hnone : c'.get? key = none) :
    c.get? key = none := by
  cases ht with
  | ask => rwa [Cache.get?_lockFor] at hnone
  | record key' lock' outcome =>
    by_cases heq : key = ⟨outcome.commit, key'.path⟩
    · rw [← heq, Cache.get?_insert_self] at hnone
      cases hnone
    · rwa [Cache.get?_insert_ne heq] at hnone
  | _ => exact hnone

/-- The lock of a key changes only when it is asked for, and at the end of a build. -/
theorem lock?_cases (ht : Turn me c h σ c' h' σ') (key : CheckoutKey) :
    c'.lock? key = c.lock? key ∧ (∀ lock, σ'.Uses key lock → σ.Uses key lock) ∨
      σ = asks key ∧ c' = (c.lockFor key).2 ∧ σ' = waits key (c.lockFor key).1 ∨
      ∃ lock result, σ = ends key lock result ∧ c' = c.dropLock key ∧ σ' = leaves result := by
  cases ht with
  | idle => exact .inl ⟨rfl, fun _ h => h⟩
  | take | lack | record | fail => exact .inl ⟨rfl, fun _ h => h⟩
  | ask key' =>
    by_cases heq : key' = key
    · subst heq
      exact .inr (.inl ⟨rfl, rfl, rfl⟩)
    · exact .inl ⟨Cache.lock?_lockFor_ne (Ne.symm heq), fun _ h => absurd h.1 heq⟩
  | finish key' lock' result =>
    by_cases heq : key' = key
    · subst heq
      exact .inr (.inr ⟨lock', result, rfl, rfl, rfl⟩)
    · exact .inl ⟨Cache.lock?_dropLock_ne (Ne.symm heq), fun _ h => h.elim⟩
  | _ => exact .inl ⟨rfl, fun _ h => h.elim⟩

/-- A build begins when nothing is remembered. -/
theorem of_builds (ht : Turn me c h σ c' h' (builds key lock)) :
    σ = builds key lock ∨ σ = checks key lock ∧ c.get? key = none := by
  cases ht with
  | idle => exact .inl rfl
  | lack hget => exact .inr ⟨rfl, hget⟩

end Turn

end Stand

namespace Phase

def stand : Phase → Stand
  | start .. | prepare .. | resolve .. => .apart
  | lookUp _ key => .looks key
  | askLock _ key => .asks key
  | acquire job => .waits job.key job.lock
  | lookAgain job => .checks job.key job.lock
  | makeDirs job | openScratch job | clone job _ | readHead job _ | discard job _ _
  | remember job _ => .builds job.key job.lock
  | strip build | locate build | openWorkspace build _ | openSource build _ | copy build _ _
  | hash build _ | share build _ _ | publish build _ _ => .builds build.job.key build.job.lock
  | finish job result => .ends job.key job.lock result
  | release result => .leaves result
  | done result => .gone result

/-- The key of a checkout, from the first look into the memo to the end of the build. -/
def key? (p : Phase) : Option CheckoutKey := p.stand.key?

/-- The lock of a checkout, from the time it is given one to the end of the build. -/
def lock? (p : Phase) : Option LockId := p.stand.lock?

theorem eq_finish_of_stand {p : Phase} {key : CheckoutKey} {lock : LockId}
    {result : Except Failure Outcome} (h : p.stand = .ends key lock result) :
    ∃ job, p = finish job result ∧ job.key = key := by
  cases p
  case finish job result =>
    obtain ⟨hkey, -, rfl⟩ := Stand.ends.inj h
    exact ⟨job, rfl, hkey⟩
  all_goals cases h

theorem eq_lookAgain_of_stand {p : Phase} {key : CheckoutKey} {lock : LockId}
    (h : p.stand = .checks key lock) : ∃ job, p = lookAgain job ∧ job.key = key ∧ job.lock = lock := by
  cases p
  case lookAgain job =>
    obtain ⟨hkey, hlock⟩ := Stand.checks.inj h
    exact ⟨job, rfl, hkey, hlock⟩
  all_goals cases h

theorem stand_of_isBuilding {p : Phase} (h : p.isBuilding = true) {key : CheckoutKey}
    (hkey : p.key? = some key) : ∃ lock, p.stand = .builds key lock := by
  obtain ⟨key', lock, hstand⟩ : ∃ key' lock, p.stand = .builds key' lock := by
    cases p
    case makeDirs | openScratch | clone | readHead | strip | locate | openWorkspace | openSource
      | copy | hash | share | publish | discard | remember => exact ⟨_, _, rfl⟩
    all_goals cases h
  rw [key?, hstand] at hkey
  obtain rfl := Option.some.inj hkey
  exact ⟨lock, hstand⟩

variable {site : Site} {me : Nat} {w w' : World} {b b' : Builder} {p p' : Phase}

/-- All of a build but its last step is between a checkout and the disk. -/
theorem stand_step_of_isBuilding (h : p.step site me w b = (w', b', p')) (hp : p.isBuilding = true)
    (hlast : ∀ job result, p ≠ remember job result) : b' = b ∧ p'.stand = p.stand := by
  cases p
  case makeDirs | openScratch | clone | readHead | strip | locate | openWorkspace | openSource | hash
    | share | publish =>
    unfold step at h
    dsimp only at h
    repeat' split at h
    all_goals
      obtain ⟨-, rfl, rfl⟩ := Prod.mk.inj h
      exact ⟨rfl, rfl⟩
  case copy build route tasks =>
    cases tasks with
    | nil =>
      obtain ⟨-, rfl, rfl⟩ := Prod.mk.inj h
      exact ⟨rfl, rfl⟩
    | cons task rest =>
      unfold step at h
      dsimp only at h
      split at h <;> obtain ⟨-, rfl, rfl⟩ := Prod.mk.inj h <;> exact ⟨rfl, rfl⟩
  case discard job scratches result =>
    cases scratches <;> obtain ⟨-, rfl, rfl⟩ := Prod.mk.inj h <;> exact ⟨rfl, rfl⟩
  case remember job result => exact absurd rfl (hlast job result)
  all_goals cases hp

theorem step_turn (h : p.step site me w b = (w', b', p')) :
    Stand.Turn me b.cache b.held p.stand b'.cache b'.held p'.stand := by
  cases p
  case start =>
    unfold step at h
    dsimp only at h
    split at h <;> obtain ⟨-, rfl, rfl⟩ := Prod.mk.inj h
    · exact .refuse ..
    · exact .idle ..
  case prepare =>
    unfold step at h
    dsimp only at h
    split at h
    · obtain ⟨-, rfl, rfl⟩ := Prod.mk.inj h
      exact .idle ..
    · split at h <;> obtain ⟨-, rfl, rfl⟩ := Prod.mk.inj h
      · exact .refuse ..
      · exact .idle ..
  case resolve =>
    unfold step at h
    dsimp only at h
    split at h <;> obtain ⟨-, rfl, rfl⟩ := Prod.mk.inj h
    · exact .refuse ..
    · exact .come ..
  case lookUp =>
    unfold step at h
    dsimp only at h
    split at h <;> obtain ⟨-, rfl, rfl⟩ := Prod.mk.inj h
    · exact .hit ‹_›
    · exact .miss ‹_›
  case askLock =>
    obtain ⟨-, rfl, rfl⟩ := Prod.mk.inj h
    exact .ask ..
  case acquire =>
    unfold step at h
    dsimp only at h
    split at h <;> obtain ⟨-, rfl, rfl⟩ := Prod.mk.inj h
    · exact .idle ..
    · exact .take ‹_›
  case lookAgain =>
    unfold step at h
    dsimp only at h
    split at h <;> obtain ⟨-, rfl, rfl⟩ := Prod.mk.inj h
    · exact .found ‹_›
    · exact .lack ‹_›
  case remember job result =>
    cases result <;> obtain ⟨-, rfl, rfl⟩ := Prod.mk.inj h
    · exact .fail ..
    · exact .record ..
  case finish =>
    obtain ⟨-, rfl, rfl⟩ := Prod.mk.inj h
    exact .finish ..
  case release =>
    obtain ⟨-, rfl, rfl⟩ := Prod.mk.inj h
    exact .release ..
  case done =>
    obtain ⟨-, rfl, rfl⟩ := Prod.mk.inj h
    exact .idle ..
  all_goals
    obtain ⟨rfl, hstand⟩ := stand_step_of_isBuilding h rfl nofun
    rw [hstand]
    exact .idle ..

/-- A step that fails leaves a checkout in its build, or ends it before it has a key. -/
theorem stand_failed {f : Failure} (h : p.failed? f = some p') :
    p'.stand = p.stand ∨ p.stand = .apart ∧ p'.stand = .gone (.error f) := by
  cases p
  case start | prepare | resolve =>
    obtain rfl := Option.some.inj h
    exact .inr ⟨rfl, rfl⟩
  case makeDirs | openScratch | clone | readHead | strip | locate | openWorkspace | openSource | copy
    | hash | share | publish =>
    obtain rfl := Option.some.inj h
    exact .inl rfl
  all_goals cases h

end Phase

/-- What a builder keeps, and how far its checkouts are. -/
structure Desk where
  cache : Cache
  held : Held Nat
  stand : Nat → Stand

namespace Desk

def Step (d d' : Desk) : Prop := ∃ me σ,
  Stand.Turn me d.cache d.held (d.stand me) d'.cache d'.held σ ∧ d'.stand = Function.update d.stand me σ

theorem Step.refl (d : Desk) : d.Step d := ⟨0, _, .idle .., (Function.update_eq_self ..).symm⟩

/-- Whoever has taken a lock is its holder. -/
def Guards (d : Desk) : Prop :=
  ∀ me lock, (d.stand me).Holds lock → d.held.holder? lock = some me

/-- As long as nothing is remembered for a key, all who have a lock for it have the one of the
table. -/
def Agrees (d : Desk) (key : CheckoutKey) : Prop :=
  d.cache.get? key = none → ∀ me lock, (d.stand me).Uses key lock → d.cache.lock? key = some lock

/-- No two checkouts build for a key. -/
def Excludes (d : Desk) (key : CheckoutKey) : Prop :=
  ∀ me other lock lock', d.stand me = .builds key lock → d.stand other = .builds key lock' → me = other

/-- A build for a key has come to its end and has left nothing in the memo. -/
def Wastes (d : Desk) (key : CheckoutKey) : Prop :=
  d.cache.get? key = none ∧ ∃ me lock result, d.stand me = .ends key lock result

namespace Step

variable {d d' : Desk} {key : CheckoutKey}

theorem guards (h : d.Step d') (hd : d.Guards) : d'.Guards := by
  obtain ⟨me, σ, hturn, hstand⟩ := h
  intro other lock hholds
  rw [hstand] at hholds
  by_cases hne : other = me
  · subst hne
    rw [Function.update_self] at hholds
    have hold := hd other lock
    generalize d.stand other = τ at hturn hold
    generalize d.cache = c, d'.cache = c', d.held = h, d'.held = h' at hturn hold ⊢
    cases hturn with
    | idle => exact hold hholds
    | take hfree =>
      rw [(Held.holder?_of_acquire? hfree lock).2]
      exact if_pos hholds.symm
    | lack => exact hold hholds
    | record => exact hold hholds
    | fail => exact hold hholds
    | _ => cases hholds
  · rw [Function.update_of_ne hne] at hholds
    have hold := hd other lock hholds
    generalize d.stand me = τ at hturn
    generalize d.cache = c, d'.cache = c', d.held = h, d'.held = h' at hturn hold ⊢
    cases hturn with
    | take hfree =>
      obtain ⟨hnone, hheld⟩ := Held.holder?_of_acquire? hfree lock
      rw [hheld, if_neg]
      · exact hold
      · rintro rfl
        rw [hnone] at hold
        cases hold
    | release => exact Held.holder?_release hold hne
    | _ => exact hold

/-- All who have a lock for a key go on agreeing, unless a build has come to nothing. -/
theorem agrees (h : d.Step d') (hwaste : ¬ d.Wastes key) (hd : d.Agrees key) : d'.Agrees key := by
  obtain ⟨me, σ, hturn, hstand⟩ := h
  intro hnone other lock huses
  have hnone' := hturn.get?_eq_none hnone
  rw [hstand] at huses
  rcases hturn.lock?_cases key with ⟨hlock, hkept⟩ | ⟨hasks, hcache, rfl⟩ | ⟨lock', result, hends, -, -⟩
  · rw [hlock]
    refine hd hnone' other lock ?_
    by_cases hne : other = me
    · subst hne
      rw [Function.update_self] at huses
      exact hkept lock huses
    · rwa [Function.update_of_ne hne] at huses
  · rw [hcache, Cache.lock?_lockFor_self]
    by_cases hne : other = me
    · subst hne
      rw [Function.update_self] at huses
      exact congrArg some huses.2
    · rw [Function.update_of_ne hne] at huses
      rw [Cache.lockFor_of_lock? (hd hnone' other lock huses)]
  · exact absurd ⟨hnone', me, lock', result, hends⟩ hwaste

/-- Who begins to build has the lock of the table, and so has no company. -/
theorem excludes (h : d.Step d') (hguards : d.Guards) (hagrees : d.Agrees key)
    (hd : d.Excludes key) : d'.Excludes key := by
  obtain ⟨me, σ, hturn, hstand⟩ := h
  have hnew : ∀ other lock lock', other ≠ me → σ = .builds key lock →
      d.stand other = .builds key lock' → other = me := by
    intro other lock lock' hne hσ hother
    rw [hσ] at hturn
    rcases hturn.of_builds with hold | ⟨hold, hnone⟩
    · exact hd other me lock' lock hother hold
    · have hlock := hagrees hnone me lock (by rw [hold]; exact ⟨rfl, rfl⟩)
      have hlock' := hagrees hnone other lock' (by rw [hother]; exact ⟨rfl, rfl⟩)
      obtain rfl := Option.some.inj (hlock.symm.trans hlock')
      have hme := hguards me lock (by rw [hold]; rfl)
      have hother := hguards other lock (by rw [hother]; rfl)
      exact Option.some.inj (hother.symm.trans hme)
  intro first second lock lock' hfirst hsecond
  rw [hstand] at hfirst hsecond
  by_cases h1 : first = me
  · subst h1
    by_cases h2 : second = first
    · exact h2.symm
    · rw [Function.update_self] at hfirst
      rw [Function.update_of_ne h2] at hsecond
      exact (hnew second lock lock' h2 hfirst hsecond).symm
  · rw [Function.update_of_ne h1] at hfirst
    by_cases h2 : second = me
    · subst h2
      rw [Function.update_self] at hsecond
      exact hnew first lock' lock h1 hsecond hfirst
    · rw [Function.update_of_ne h2] at hsecond
      exact hd first second lock lock' hfirst hsecond

end Step

end Desk

namespace System

/-- How far a checkout is for a builder. Those of other builders are apart. -/
def standFor (b : Nat) : Option (Nat × Phase) → Stand
  | some (c, p) => if c = b then p.stand else .apart
  | none => .apart

def desk (s : System) (b : Nat) : Desk :=
  ⟨(s.builder b).cache, (s.builder b).held, fun me => standFor b (s.checkout me)⟩

variable {site : Site} {seat : Seat} {s s' : System} {me b c : Nat} {p p' : Phase}

theorem standFor_self : standFor b (some (b, p)) = p.stand := if_pos rfl

theorem standFor_ne (h : c ≠ b) : standFor b (some (c, p)) = .apart := if_neg h

theorem stand_desk (h : s.checkout me = some (b, p)) : (s.desk b).stand me = p.stand :=
  (congrArg (standFor b) h).trans standFor_self

theorem checkout_of_stand {σ : Stand} (h : (s.desk b).stand me = σ) (hσ : σ ≠ .apart) :
    ∃ p, s.checkout me = some (b, p) ∧ p.stand = σ := by
  have h : standFor b (s.checkout me) = σ := h
  cases hme : s.checkout me with
  | none =>
    rw [hme] at h
    exact absurd h.symm hσ
  | some checkout =>
    obtain ⟨c, p⟩ := checkout
    rw [hme] at h
    by_cases hc : c = b
    · subst hc
      exact ⟨p, rfl, standFor_self ▸ h⟩
    · rw [standFor_ne hc] at h
      exact absurd h.symm hσ

theorem stand_update (h : s'.checkout = Function.update s.checkout me (some (c, p'))) :
    (s'.desk b).stand = Function.update (s.desk b).stand me (standFor b (some (c, p'))) := by
  show (fun other => standFor b (s'.checkout other)) = _
  rw [h]
  exact Function.comp_update (standFor b) s.checkout me _

/-- A checkout of another builder, and one that gets no further, change nothing at a desk. -/
theorem desk_of_standFor_eq (hbuilder : s'.builder b = s.builder b)
    (h : s'.checkout = Function.update s.checkout me (some (c, p')))
    (heq : standFor b (some (c, p')) = (s.desk b).stand me) : (s.desk b).Step (s'.desk b) := by
  have hstand := stand_update (b := b) h
  rw [heq, Function.update_eq_self] at hstand
  have hsame : s'.desk b = s.desk b := by
    rw [show s'.desk b = ⟨(s'.builder b).cache, (s'.builder b).held, (s'.desk b).stand⟩ from rfl,
      hbuilder, hstand]
    rfl
  rw [hsame]
  exact .refl _

/-- Each desk sees of a system nothing but the steps of its own checkouts. -/
theorem Step.desk (h : Step site seat s s') (b : Nat) : (s.desk b).Step (s'.desk b) := by
  cases h with
  | @launch me c branch path hnone =>
    refine desk_of_standFor_eq rfl rfl ?_
    show (if c = b then Stand.apart else .apart) = standFor b (s.checkout me)
    rw [ite_self, hnone]
    rfl
  | @advance me c p p' w' b' hme hstep hprepare =>
    by_cases hc : c = b
    · subst hc
      refine ⟨me, p'.stand, ?_, (stand_update rfl).trans (by rw [standFor_self])⟩
      rw [stand_desk hme]
      simpa [System.desk] using Phase.step_turn hstep
    · refine desk_of_standFor_eq (Function.update_of_ne (Ne.symm hc) ..) rfl ?_
      show _ = standFor b (s.checkout me)
      rw [hme, standFor_ne hc, standFor_ne hc]
  | @fail me c p p' d' f hme hfail hleft =>
    by_cases hc : c = b
    · subst hc
      refine ⟨me, p'.stand, ?_, (stand_update rfl).trans (by rw [standFor_self])⟩
      rw [stand_desk hme]
      rcases Phase.stand_failed hfail with hsame | ⟨hapart, hgone⟩
      · rw [hsame]
        exact .idle ..
      · rw [hapart, hgone]
        exact .refuse ..
    · refine desk_of_standFor_eq rfl rfl ?_
      show _ = standFor b (s.checkout me)
      rw [hme, standFor_ne hc, standFor_ne hc]
  | @leave me c job scratch rest result d' hme hleft =>
    refine desk_of_standFor_eq rfl rfl ?_
    show _ = standFor b (s.checkout me)
    rw [hme]
    rfl
  | outside => exact .refl _

end System

namespace Run

variable {site : Site} {seat : Seat} (run : Run site seat)

theorem stand_zero (b me : Nat) : ((run.state 0).desk b).stand me = .apart := by
  show System.standFor b ((run.state 0).checkout me) = _
  rw [run.initial.checkouts me]
  rfl

theorem guards (n b : Nat) : ((run.state n).desk b).Guards := by
  induction n with
  | zero =>
    intro me lock h
    rw [run.stand_zero b me] at h
    exact h.elim
  | succ n ih => exact ((run.step n).desk b).guards ih

/-- Until a build for a key comes to nothing, all is well with its lock. -/
theorem excludes {n b : Nat} {key : CheckoutKey}
    (hwaste : ∀ i < n, ¬ ((run.state i).desk b).Wastes key) :
    ((run.state n).desk b).Agrees key ∧ ((run.state n).desk b).Excludes key := by
  induction n with
  | zero =>
    refine ⟨fun _ me lock h => ?_, fun me _ lock _ h => ?_⟩
    · rw [run.stand_zero b me] at h
      exact h.elim
    · rw [run.stand_zero b me] at h
      cases h
  | succ n ih =>
    obtain ⟨hagrees, hexcludes⟩ := ih fun i hi => hwaste i (Nat.lt_succ_of_lt hi)
    exact ⟨((run.step n).desk b).agrees (hwaste n n.lt_succ_self) hagrees,
      ((run.step n).desk b).excludes (run.guards n b) hagrees hexcludes⟩

/-- Two checkouts of one builder that build for one key at one time have different locks, and
before that a build for the key has ended and left nothing in the memo: it failed, or found its
branch at another commit. -/
theorem overlap_after_waste {n b me other : Nat} {p q : Phase} {key : CheckoutKey}
    (hme : (run.state n).checkout me = some (b, p))
    (hother : (run.state n).checkout other = some (b, q)) (hp : p.isBuilding = true)
    (hq : q.isBuilding = true) (hpkey : p.key? = some key) (hqkey : q.key? = some key)
    (hne : me ≠ other) :
    p.lock? ≠ q.lock? ∧ ∃ i < n, ((run.state i).builder b).cache.get? key = none ∧
      ∃ who job result, (run.state i).checkout who = some (b, .finish job result) ∧ job.key = key := by
  obtain ⟨lock, hbuilds⟩ := Phase.stand_of_isBuilding hp hpkey
  obtain ⟨lock', hbuilds'⟩ := Phase.stand_of_isBuilding hq hqkey
  have hstand := (System.stand_desk hme).trans hbuilds
  have hstand' := (System.stand_desk hother).trans hbuilds'
  constructor
  · rw [Phase.lock?, Phase.lock?, hbuilds, hbuilds']
    intro heq
    obtain rfl := Option.some.inj heq
    have hholder := run.guards n b me lock (by rw [hstand]; rfl)
    have hholder' := run.guards n b other lock (by rw [hstand']; rfl)
    exact hne (Option.some.inj (hholder.symm.trans hholder'))
  · by_contra hnot
    have hwaste : ∀ i < n, ¬ ((run.state i).desk b).Wastes key := by
      rintro i hi ⟨hnone, who, l, result, hends⟩
      obtain ⟨r, hwho, hr⟩ := System.checkout_of_stand hends nofun
      obtain ⟨job, rfl, hjob⟩ := Phase.eq_finish_of_stand hr
      exact hnot ⟨i, hi, hnone, who, job, result, hwho, hjob⟩
    exact hne ((run.excludes hwaste).2 me other lock lock' hstand hstand')

end Run

/-! Three checkouts of a branch. The first fails while the second waits for its lock; the third
comes after that, and is given a lock of its own while the second builds. -/

namespace Trio

def calls : List Call :=
  .launch 0 "x" "." :: List.replicate 5 (.go 0) ++ .launch 1 "x" "." :: List.replicate 5 (.go 1) ++
    List.replicate 2 (.go 0) ++ .fail 0 .emptyCommand :: List.replicate 4 (.go 0) ++
    List.replicate 2 (.go 1) ++ .launch 2 "x" "." :: List.replicate 7 (.go 2)

def run : Run Solo.site Solo.seat :=
  .scheduled Solo.isInitial (fun _ => rfl) (fun _ _ => rfl) calls

theorem checkout_run : (run.state 29).checkout 1 = some (0, .makeDirs Solo.job) ∧
    (run.state 29).checkout 2 = some (0, .makeDirs { Solo.job with lock := 1 }) := by
  decide

/-- The second and the third build at one time, and the first has left nothing. -/
theorem overlap_after_waste_trio :
    ((run.state 29).checkout 1 = some (0, .makeDirs Solo.job) ∧
      (run.state 29).checkout 2 = some (0, .makeDirs { Solo.job with lock := 1 })) ∧
    ∃ i < 29, ((run.state i).builder 0).cache.get? Solo.key = none ∧
      ∃ who job result, (run.state i).checkout who = some (0, .finish job result) ∧
        job.key = Solo.key :=
  ⟨checkout_run,
    (run.overlap_after_waste checkout_run.1 checkout_run.2 rfl rfl rfl rfl (by decide)).2⟩

end Trio

end Depot
