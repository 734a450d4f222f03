import Depot.Proofs.Checkout.Locking
import Mathlib.Data.Set.Card

/-!
What a cache answers, told from what was done with it. The memo depends on what was recorded alone,
and the locks on who asked for one and which builds were ended. A lock that is no longer in the table
is never given out again.
-/

namespace Depot

section Pairs

variable {α β : Type} [DecidableEq α] {key other : α} {value : β} {pairs : List (α × β)}

theorem assoc?_eq_none_iff : assoc? key pairs = none ↔ key ∉ pairs.map Prod.fst := by
  induction pairs with
  | nil => simp [assoc?]
  | cons pair pairs ih =>
    rw [assoc?, List.map_cons, List.mem_cons, not_or, ← ih]
    split_ifs with heq <;> simp [heq]

theorem mem_keys_assocSet :
    other ∈ (assocSet key value pairs).map Prod.fst ↔ other = key ∨ other ∈ pairs.map Prod.fst := by
  by_cases heq : other = key
  · subst heq
    refine iff_of_true ?_ (.inl rfl)
    by_contra hnot
    have hnone := assoc?_eq_none_iff.mpr hnot
    rw [assoc?_assocSet_self] at hnone
    cases hnone
  · rw [← not_iff_not, not_or, ← assoc?_eq_none_iff, ← assoc?_eq_none_iff, assoc?_assocSet_ne heq]
    exact (and_iff_right heq).symm

theorem nodup_keys_assocSet (h : (pairs.map Prod.fst).Nodup) :
    ((assocSet key value pairs).map Prod.fst).Nodup := by
  induction pairs with
  | nil => simp [assocSet]
  | cons pair pairs ih =>
    obtain ⟨hfirst, hrest⟩ := List.nodup_cons.mp h
    rw [assocSet]
    split_ifs with heq
    · rw [List.map_cons, heq]
      exact h
    · refine List.nodup_cons.mpr ⟨?_, ih hrest⟩
      rw [mem_keys_assocSet, not_or]
      exact ⟨Ne.symm heq, hfirst⟩

theorem nodup_keys_assocErase (h : (pairs.map Prod.fst).Nodup) :
    ((assocErase key pairs).map Prod.fst).Nodup :=
  h.sublist (List.filter_sublist.map _)

theorem length_eq_ncard (h : (pairs.map Prod.fst).Nodup) :
    pairs.length = {key | assoc? key pairs ≠ none}.ncard := by
  have hkeys : {key | assoc? key pairs ≠ none} = ↑(pairs.map Prod.fst).toFinset := by
    ext key
    simp only [Set.mem_ofPred_eq, ne_eq, assoc?_eq_none_iff, not_not, Finset.mem_coe, List.mem_toFinset]
  rw [hkeys, Set.ncard_coe_finset, List.toFinset_card_of_nodup h, List.length_map]

end Pairs

/-- A cache, and who holds the locks that it has given out. -/
structure Custody where
  cache : Cache := {}
  held : Held Nat := {}

namespace Custody

/-- What is done with a cache and with its locks. -/
inductive Act where
  | get (key : CheckoutKey)
  | insert (key : CheckoutKey) (archive : Option ArchiveHash)
  | lock (key : CheckoutKey)
  | finish (key : CheckoutKey)
  /-- Takes a lock, if it is free. -/
  | hold (lock : LockId) (holder : Nat)
  | release (holder : Nat)
  deriving DecidableEq

inductive Reply where
  | done
  | found (outcome : Option (Option ArchiveHash))
  | lock (lock : LockId)
  | taken (isTaken : Bool)
  deriving DecidableEq

def step (s : Custody) : Act → Custody × Reply
  | .get key => (s, .found (s.cache.get? key))
  | .insert key archive => ({ s with cache := s.cache.insert key archive }, .done)
  | .lock key => ({ s with cache := (s.cache.lockFor key).2 }, .lock (s.cache.lockFor key).1)
  | .finish key => ({ s with cache := s.cache.dropLock key }, .done)
  | .hold lock holder =>
    match s.held.acquire? lock holder with
    | some held => ({ s with held }, .taken true)
    | none => (s, .taken false)
  | .release holder => ({ s with held := s.held.release holder }, .done)

def next (s : Custody) (act : Act) : Custody := (s.step act).1

/-- A new cache after some acts. -/
def after (acts : List Act) : Custody := acts.foldl next {}

/-- What an act gives after others. -/
def reply (acts : List Act) (act : Act) : Reply := ((after acts).step act).2

/-- Acts on a lock itself. The others are acts on the cache. -/
def Act.isOnLock : Act → Bool
  | hold .. | release _ => true
  | _ => false

/-- An act was done, and since then none that puts an end to it. -/
def Since (acts : List Act) (act : Act) (ends : Act → Prop) : Prop :=
  ∃ before later, acts = before ++ act :: later ∧ ∀ other ∈ later, ¬ ends other

/-- An act records an outcome for a key. -/
def Act.Records (key : CheckoutKey) (act : Act) : Prop := ∃ archive, act = .insert key archive

variable {acts : List Act} {act other : Act} {ends : Act → Prop} {s : Custody}
  {key key' : CheckoutKey} {archive : Option ArchiveHash} {lock : LockId}

theorem not_since_nil : ¬ Since [] act ends := by
  rintro ⟨before, later, h, -⟩
  simp at h

theorem since_concat :
    Since (acts ++ [other]) act ends ↔ other = act ∨ Since acts act ends ∧ ¬ ends other := by
  constructor
  · rintro ⟨before, later, heq, hlater⟩
    rcases List.eq_nil_or_concat later with rfl | ⟨later, last, rfl⟩
    · obtain ⟨-, hlast⟩ := List.append_inj' heq rfl
      exact .inl (List.singleton_inj.mp hlast)
    · rw [List.concat_eq_append] at hlater
      rw [List.concat_eq_append, ← List.cons_append, ← List.append_assoc] at heq
      obtain ⟨hinit, hlast⟩ := List.append_inj' heq rfl
      rw [List.singleton_inj.mp hlast]
      exact .inr ⟨⟨before, later, hinit, fun x hx => hlater x (List.mem_append_left _ hx)⟩,
        hlater last (by simp)⟩
  · rintro (rfl | ⟨⟨before, later, rfl, hlater⟩, hother⟩)
    · exact ⟨acts, [], rfl, by simp⟩
    · refine ⟨before, later ++ [other], by simp, ?_⟩
      intro x hx
      rcases List.mem_append.mp hx with hx | hx
      · exact hlater x hx
      · rw [List.mem_singleton.mp hx]
        exact hother

/-- Of the acts of a kind, if there are any, one is the last. -/
theorem exists_since (kind : Act → Prop) :
    (∃ act, kind act ∧ Since acts act kind) ↔ ∃ act ∈ acts, kind act := by
  induction acts using List.reverseRecOn with
  | nil => simp [not_since_nil]
  | append_singleton acts last ih =>
    constructor
    · rintro ⟨act, hact, before, later, heq, -⟩
      exact ⟨act, heq ▸ by simp, hact⟩
    · rintro ⟨act, hmem, hact⟩
      by_cases hlast : kind last
      · exact ⟨last, hlast, since_concat.mpr (.inl rfl)⟩
      · have hmem : act ∈ acts := by
          rcases List.mem_append.mp hmem with hmem | hmem
          · exact hmem
          · rw [List.mem_singleton.mp hmem] at hact
            exact absurd hact hlast
        obtain ⟨act, hact, hsince⟩ := ih.mpr ⟨act, hmem, hact⟩
        exact ⟨act, hact, since_concat.mpr (.inr ⟨hsince, hlast⟩)⟩

theorem after_append (acts acts' : List Act) :
    after (acts ++ acts') = acts'.foldl next (after acts) :=
  List.foldl_append ..

theorem after_concat (acts : List Act) (act : Act) : after (acts ++ [act]) = (after acts).next act :=
  after_append acts [act]

@[simp]
theorem cache_next_hold (holder : Nat) : (s.next (.hold lock holder)).cache = s.cache := by
  unfold next step
  dsimp only
  split <;> rfl

@[simp]
theorem cache_next_release (holder : Nat) : (s.next (.release holder)).cache = s.cache := rfl

theorem held_next_of_not_isOnLock (h : act.isOnLock = false) : (s.next act).held = s.held := by
  cases act
  case hold | release => cases h
  all_goals rfl

/-- An act on a lock looks at nothing but who holds which lock. -/
theorem held_next_congr (hact : act.isOnLock = true) {s' : Custody} (h : s.held = s'.held) :
    (s.next act).held = (s'.next act).held := by
  cases act
  case hold lock holder =>
    unfold next step
    dsimp only
    rw [h]
    split
    · rfl
    · exact h
  case release holder => exact congrArg (Held.release · holder) h
  all_goals cases hact

/-! ### The memo -/

theorem get?_next : (s.next act).cache.get? key = some archive ↔
    act = .insert key archive ∨ s.cache.get? key = some archive ∧ ¬ act.Records key := by
  unfold Act.Records
  cases act with
  | insert key' archive' =>
    by_cases heq : key = key'
    · subst heq
      simp [next, step, Cache.get?_insert_self]
    · simp [next, step, Cache.get?_insert_ne heq, Ne.symm heq]
  | hold | release => simp
  | lock => simp [next, step, Cache.get?_lockFor]
  | get => simp [next, step]
  | finish => simp [next, step, Cache.dropLock, Cache.get?]

/-- The memo has for a key what was recorded for it last. -/
theorem get?_after :
    (after acts).cache.get? key = some archive ↔ Since acts (.insert key archive) (Act.Records key) := by
  induction acts using List.reverseRecOn with
  | nil => exact iff_of_false nofun not_since_nil
  | append_singleton acts act ih => rw [after_concat, get?_next, ih, since_concat]

theorem get?_after_eq_none : (after acts).cache.get? key = none ↔ ∀ act ∈ acts, ¬ act.Records key := by
  have hlast : (∃ act, act.Records key ∧ Since acts act (Act.Records key)) ↔
      ∃ act ∈ acts, act.Records key := exists_since (Act.Records key)
  rw [Option.eq_none_iff_forall_ne_some, ← not_iff_not]
  push Not
  rw [← hlast]
  constructor
  · rintro ⟨archive, hget⟩
    exact ⟨_, ⟨archive, rfl⟩, get?_after.mp hget⟩
  · rintro ⟨_, ⟨archive, rfl⟩, hsince⟩
    exact ⟨archive, get?_after.mpr hsince⟩

/-! ### The locks -/

end Custody

namespace Cache

variable {c : Cache} {key : CheckoutKey} {lock : LockId}

theorem fresh_le_lockFor : c.fresh ≤ (c.lockFor key).2.fresh := by
  unfold lockFor
  split
  · exact le_rfl
  · exact Nat.le_succ _

/-- A new lock is older than those to come. -/
theorem lockFor_lt_fresh (h : ∀ lock, c.lock? key = some lock → lock < c.fresh) :
    (c.lockFor key).1 < (c.lockFor key).2.fresh := by
  unfold lockFor
  split
  · next lock hlock => exact h lock hlock
  · exact Nat.lt_succ_self _

/-- A lock that is not new is given out only if it is in the table. -/
theorem lockFor_eq_iff (h : lock < c.fresh) : (c.lockFor key).1 = lock ↔ c.lock? key = some lock := by
  constructor
  · intro heq
    cases hlock : c.lock? key with
    | some other =>
      rw [lockFor_of_lock? hlock] at heq
      exact congrArg some heq
    | none =>
      rw [lock?] at hlock
      simp only [lockFor, hlock] at heq
      exact absurd heq (Nat.ne_of_gt h)
  · intro hlock
    rw [lockFor_of_lock? hlock]

/-- No two keys have one lock, and the locks to come are none of those in the table. -/
structure IsSound (c : Cache) : Prop where
  older {key : CheckoutKey} {lock : LockId} (h : c.lock? key = some lock) : lock < c.fresh
  unique {key other : CheckoutKey} {lock : LockId} (h : c.lock? key = some lock)
    (hother : c.lock? other = some lock) : key = other

end Cache

namespace Custody

variable {acts : List Act} {act : Act} {s : Custody} {key other : CheckoutKey} {lock : LockId}

theorem lock?_next : (s.next act).cache.lock? key = some lock ↔
    act = .lock key ∧ (s.cache.lockFor key).1 = lock ∨
      s.cache.lock? key = some lock ∧ act ≠ .finish key := by
  cases act with
  | lock key' =>
    by_cases heq : key = key'
    · subst heq
      rw [next, step, Cache.lock?_lockFor_self, Option.some.injEq]
      constructor
      · intro h
        exact .inl ⟨rfl, h⟩
      · rintro (⟨-, rfl⟩ | ⟨hlock, -⟩)
        · rfl
        · rw [Cache.lockFor_of_lock? hlock]
    · simp [next, step, Cache.lock?_lockFor_ne heq, Ne.symm heq]
  | finish key' =>
    by_cases heq : key = key'
    · subst heq
      simp [next, step, Cache.lock?_dropLock_self]
    · simp [next, step, Cache.lock?_dropLock_ne heq, Ne.symm heq]
  | hold | release => simp
  | get => simp [next, step]
  | insert => simp [next, step, Cache.insert, Cache.lock?]

theorem fresh_le_next : s.cache.fresh ≤ (s.next act).cache.fresh := by
  cases act with
  | lock => exact Cache.fresh_le_lockFor
  | hold => rw [cache_next_hold]
  | _ => exact le_rfl

/-- What happens to a lock that is not new: it is taken out of the table, at most. -/
theorem lock?_next_of_lt (h : lock < s.cache.fresh) :
    (s.next act).cache.lock? key = some lock ↔ s.cache.lock? key = some lock ∧ act ≠ .finish key := by
  rw [lock?_next, Cache.lockFor_eq_iff h]
  constructor
  · rintro (⟨rfl, hlock⟩ | hold)
    · exact ⟨hlock, nofun⟩
    · exact hold
  · exact .inr

theorem lock?_foldl_of_lt (h : lock < s.cache.fresh) :
    lock < (acts.foldl next s).cache.fresh ∧ ((acts.foldl next s).cache.lock? key = some lock ↔
      s.cache.lock? key = some lock ∧ .finish key ∉ acts) := by
  induction acts generalizing s with
  | nil => simpa using h
  | cons act acts ih =>
    have hnext : lock < (s.next act).cache.fresh := h.trans_le fresh_le_next
    obtain ⟨hlt, hlock⟩ := ih hnext
    refine ⟨hlt, ?_⟩
    rw [List.foldl_cons, hlock, lock?_next_of_lt h, List.mem_cons, not_or, and_assoc, ne_comm]

theorem isSound_next (h : s.cache.IsSound) : (s.next act).cache.IsSound := by
  have hlt : ∀ {key lock}, (s.next act).cache.lock? key = some lock → lock < (s.next act).cache.fresh := by
    intro key lock hlock
    rcases lock?_next.mp hlock with ⟨rfl, rfl⟩ | ⟨hlock, -⟩
    · exact Cache.lockFor_lt_fresh fun _ => h.older
    · exact (h.older hlock).trans_le fresh_le_next
  constructor
  · exact hlt
  · intro key other lock hkey hother
    rcases lock?_next.mp hkey with ⟨rfl, heq⟩ | ⟨hkey, -⟩
    · rcases lock?_next.mp hother with ⟨hact, -⟩ | ⟨hother, -⟩
      · exact Act.lock.inj hact
      · exact h.unique ((Cache.lockFor_eq_iff (h.older hother)).mp heq) hother
    · have hold := (lock?_next_of_lt (h.older hkey)).mp hother
      exact h.unique hkey hold.1

theorem isSound_after : (after acts).cache.IsSound := by
  induction acts using List.reverseRecOn with
  | nil => exact ⟨nofun, nofun⟩
  | append_singleton acts act ih => exact after_concat acts act ▸ isSound_next ih

/-- The lock that a key was given is given out again for that key alone, until a build of it is
ended. -/
theorem reply_lock_eq_iff (acts : List Act) (key : CheckoutKey) (between : List Act)
    (other : CheckoutKey) :
    reply (acts ++ .lock key :: between) (.lock other) = reply acts (.lock key) ↔
      other = key ∧ .finish key ∉ between := by
  set lock := ((after acts).cache.lockFor key).1 with hlock
  set s := (after acts).next (.lock key) with hs
  have hsound : s.cache.IsSound := isSound_next isSound_after
  have hkey : s.cache.lock? key = some lock := Cache.lock?_lockFor_self
  obtain ⟨hlt, hlater⟩ : lock < (between.foldl next s).cache.fresh ∧
      ((between.foldl next s).cache.lock? other = some lock ↔
        s.cache.lock? other = some lock ∧ .finish other ∉ between) :=
    lock?_foldl_of_lt (hsound.older hkey)
  have hother : s.cache.lock? other = some lock ↔ other = key :=
    ⟨fun h => hsound.unique h hkey, fun h => h ▸ hkey⟩
  have hafter : after (acts ++ .lock key :: between) = between.foldl next s := after_append ..
  calc reply (acts ++ .lock key :: between) (.lock other) = reply acts (.lock key)
      ↔ ((between.foldl next s).cache.lockFor other).1 = lock := by
        rw [reply, hafter]
        exact Reply.lock.injEq .. ▸ Iff.rfl
    _ ↔ s.cache.lock? other = some lock ∧ .finish other ∉ between := by
        rw [Cache.lockFor_eq_iff hlt, hlater]
    _ ↔ other = key ∧ .finish key ∉ between := by
        rw [hother]
        exact and_congr_right fun h => h ▸ Iff.rfl

theorem lock?_after_ne_none :
    (after acts).cache.lock? key ≠ none ↔ Since acts (.lock key) (· = .finish key) := by
  induction acts using List.reverseRecOn with
  | nil => exact iff_of_false (not_not.mpr rfl) not_since_nil
  | append_singleton acts act ih =>
    rw [since_concat, ← ih, after_concat, Option.ne_none_iff_exists', Option.ne_none_iff_exists']
    simp only [lock?_next, exists_or, exists_and_left, exists_and_right, and_true, exists_eq']

/-! ### How many there are -/

theorem nodup_next (hentries : (s.cache.entries.map Prod.fst).Nodup)
    (hlocks : (s.cache.locks.map Prod.fst).Nodup) :
    ((s.next act).cache.entries.map Prod.fst).Nodup ∧
      ((s.next act).cache.locks.map Prod.fst).Nodup := by
  cases act with
  | insert => exact ⟨nodup_keys_assocSet hentries, hlocks⟩
  | finish => exact ⟨hentries, nodup_keys_assocErase hlocks⟩
  | get | release => exact ⟨hentries, hlocks⟩
  | hold =>
    rw [cache_next_hold]
    exact ⟨hentries, hlocks⟩
  | lock key =>
    refine ⟨(Cache.entries_lockFor s.cache key).symm ▸ hentries, ?_⟩
    unfold next step Cache.lockFor
    dsimp only
    split
    · exact hlocks
    · exact nodup_keys_assocSet hlocks

theorem nodup_after : ((after acts).cache.entries.map Prod.fst).Nodup ∧
    ((after acts).cache.locks.map Prod.fst).Nodup := by
  induction acts using List.reverseRecOn with
  | nil => exact ⟨.nil, .nil⟩
  | append_singleton acts act ih => exact after_concat acts act ▸ nodup_next ih.1 ih.2

theorem size_after :
    (after acts).cache.size = {key | ∃ archive, Act.insert key archive ∈ acts}.ncard := by
  rw [Cache.size, length_eq_ncard nodup_after.1]
  congr 1
  ext key
  show (after acts).cache.get? key ≠ none ↔ _
  rw [ne_eq, get?_after_eq_none]
  push Not
  constructor
  · rintro ⟨_, hmem, archive, rfl⟩
    exact ⟨archive, hmem⟩
  · rintro ⟨archive, hmem⟩
    exact ⟨_, hmem, archive, rfl⟩

theorem inFlight_after :
    (after acts).cache.inFlight = {key | Since acts (.lock key) (· = .finish key)}.ncard := by
  rw [Cache.inFlight, length_eq_ncard nodup_after.2]
  congr 1
  ext key
  exact lock?_after_ne_none

/-- Who holds a lock depends on what was done with the locks themselves, and on nothing else. -/
theorem held_after : (after acts).held = (after (acts.filter Act.isOnLock)).held := by
  induction acts using List.reverseRecOn with
  | nil => rfl
  | append_singleton acts act ih =>
    rw [after_concat, List.filter_append]
    cases h : act.isOnLock with
    | false =>
      rw [held_next_of_not_isOnLock h, ih, List.filter_singleton, h]
      exact congrArg (fun acts => (after acts).held) (List.append_nil _).symm
    | true =>
      rw [List.filter_singleton, h, cond_true, after_concat]
      exact held_next_congr h ih

/-- What comes back for an act is told by the acts before it. -/
theorem follows_history (acts : List Act) :
    (∀ key archive, reply acts (.get key) = .found (some archive) ↔
      Since acts (.insert key archive) (Act.Records key)) ∧
    (∀ key, reply acts (.get key) = .found none ↔ ∀ archive, .insert key archive ∉ acts) ∧
    (after acts).cache.size = {key | ∃ archive, Act.insert key archive ∈ acts}.ncard ∧
    (∀ key between other,
      reply (acts ++ .lock key :: between) (.lock other) = reply acts (.lock key) ↔
        other = key ∧ .finish key ∉ between) ∧
    (after acts).held = (after (acts.filter Act.isOnLock)).held ∧
    (after acts).cache.inFlight = {key | Since acts (.lock key) (· = .finish key)}.ncard := by
  refine ⟨fun key archive => ?_, fun key => ?_, size_after, reply_lock_eq_iff acts, held_after,
    inFlight_after⟩
  · rw [← get?_after]
    exact Reply.found.injEq .. ▸ Iff.rfl
  · have hreply : reply acts (.get key) = .found none ↔ (after acts).cache.get? key = none :=
      Reply.found.injEq .. ▸ Iff.rfl
    rw [hreply, get?_after_eq_none]
    constructor
    · exact fun h archive hmem => h _ hmem ⟨archive, rfl⟩
    · rintro h _ hmem ⟨archive, rfl⟩
      exact h archive hmem

end Custody

end Depot
