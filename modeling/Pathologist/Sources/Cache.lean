import Pathologist.Sources.SpillFile
import Pathologist.Lib.Tally

/-!
# The cache of preprocessed sources

An entry of the cache is resident, spilled to a file, or released. A ledger says which entries are
resident and what they take, and a spill brings the total under the budget. The payload is written
outside the lock: meanwhile the entry may be released or evicted, and another source stored in its
place. The spill then sees by its address whether the source it wrote is still the one in the cache.

An address is that of a live allocation: a source that is stored differs in it from those that the
cache or a spill holds, but it may be the address of one that nobody holds any more. What a spill
file reads back is what was written to it.
-/
open Function
namespace Pathologist.Sources

/-- A shared value. -/
structure Shared (α : Type) where
  address : ℕ
  value : α

variable {P M : Type}

inductive CachedSource (P M : Type)
  | resident (src : Shared (PreprocessedSource P M))
  | spilled (src : SpilledSource P M)
  | released (src : PreprocessedSource P M)

def CachedSource.metadata : CachedSource P M → PreprocessedSource P M
  | .resident src => src.value
  | .released src => src
  | .spilled src => src.metadata

/-- What a resident entry takes. -/
def CachedSource.residentBytes : CachedSource P M → Option ℕ
  | .resident src => some (payloadBytes src.value)
  | _ => none

structure ResidentSources (P : Type) where
  paths : AList (fun _ : P => ℕ) := ∅
  bytes : ℕ := 0
  budget : ℕ := 32 * 1024 * 1024

structure Cache (P M : Type) where
  inner : P → Option (CachedSource P M) := fun _ => none
  resident : ResidentSources P := {}

def spillThreshold : ℕ := 512 * 1024

section Operations
variable [DecidableEq P]

def ResidentSources.remove (r : ResidentSources P) (path : P) : ResidentSources P :=
  match r.paths.lookup path with
  | some bytes => { r with paths := r.paths.erase path, bytes := r.bytes - bytes }
  | none => r

namespace Cache

def store (c : Cache P M) (canonical : P) (src : Shared (PreprocessedSource P M)) : Cache P M :=
  match c.inner canonical with
  | some _ => c
  | none =>
    { inner := update c.inner canonical (some (.resident src))
      resident := { c.resident with
        bytes := c.resident.bytes + payloadBytes src.value
        paths := c.resident.paths.insert canonical (payloadBytes src.value) } }

def releaseText (c : Cache P M) (canonical : P) : Cache P M :=
  match c.inner canonical with
  | some cached =>
    { inner := update c.inner canonical (some (.released (withoutText cached.metadata)))
      resident := c.resident.remove canonical }
  | none => c

def evict (c : Cache P M) (canonical : P) : Cache P M where
  inner := update c.inner canonical none
  resident := c.resident.remove canonical

def evictAll (c : Cache P M) (paths : List P) : Cache P M where
  inner := fun path => if path ∈ paths then none else c.inner path
  resident := paths.foldl ResidentSources.remove c.resident

/-- The first part of a spill: the source to write, if there is one. -/
def fetch (c : Cache P M) (canonical : P) (force : Bool) :
    Cache P M × Option (Shared (PreprocessedSource P M)) :=
  match c.inner canonical with
  | some (.resident src) =>
    (c, if !force && payloadBytes src.value ≤ spillThreshold then none else some src)
  | _ => ({ c with resident := c.resident.remove canonical }, none)

/-- The entry still is the source that was written. -/
def isCurrent (c : Cache P M) (canonical : P) (src : Shared (PreprocessedSource P M)) : Bool :=
  match c.inner canonical with
  | some (.resident current) => current.address == src.address
  | _ => false

def isResident (c : Cache P M) (canonical : P) : Bool :=
  match c.inner canonical with
  | some (.resident _) => true
  | _ => false

/-- The last part of a spill, after the payload is written. -/
def settle (c : Cache P M) (canonical : P) (src : Shared (PreprocessedSource P M))
    (spilled : SpilledSource P M) : Cache P M :=
  let c := if c.isCurrent canonical src then
      { c with inner := update c.inner canonical (some (.spilled spilled)) }
    else c
  if c.isResident canonical then c else { c with resident := c.resident.remove canonical }

end Cache
end Operations

/-- The next source to spill, while the cache is over its budget. -/
def Cache.victim [LinearOrder P] (c : Cache P M) : Option P :=
  if c.resident.bytes ≤ c.resident.budget then none else c.resident.paths.keys.min?

/-! ## The threads -/

/-- Where a thread is in a spill. -/
inductive Spill (P M : Type)
  | idle
  | fetching (canonical : P) (force : Bool)
  | writing (canonical : P) (src : Shared (PreprocessedSource P M)) (force : Bool)
  | settling (canonical : P) (src : Shared (PreprocessedSource P M)) (spilled : SpilledSource P M)
    (force : Bool)
  /-- The thread waits for the lock on budget eviction. -/
  | queued
  | choosing

/-- After a payload: the first one of a spill is followed by the loop over the victims. -/
def Spill.next (force : Bool) : Spill P M := if force then .choosing else .queued

/-- The source that the thread holds while it writes. -/
def Spill.held : Spill P M → Option (Shared (PreprocessedSource P M))
  | .writing _ src _ | .settling _ src _ _ => some src
  | _ => none

@[simp] lemma Spill.held_next (force : Bool) : (Spill.next force : Spill P M).held = none := by
  cases force <;> rfl

@[simp] lemma Spill.next_ne_settling {force force' : Bool} {path : P}
    {src : Shared (PreprocessedSource P M)} {spilled : SpilledSource P M} :
    Spill.next force ≠ .settling path src spilled force' := by
  cases force <;> exact nofun

structure State (P M T : Type) where
  cache : Cache P M := {}
  threads : T → Spill P M := fun _ => .idle
  /-- The thread that evicts. -/
  spilling : Option T := none
  /-- The source of the last store that made an entry of the path. -/
  created : P → Option (PreprocessedSource P M) := fun _ => none

inductive Action (P M T : Type)
  | store (canonical : P) (src : Shared (PreprocessedSource P M))
  | releaseText (canonical : P)
  | evict (canonical : P)
  | evictAll (paths : List P)
  | spill (t : T) (canonical : P)
  | fetch (t : T)
  | write (t : T)
  /-- The payload could not be written. -/
  | fail (t : T)
  | settle (t : T)
  | lock (t : T)
  | choose (t : T)

namespace State
variable {T : Type} [LinearOrder P] [DecidableEq T]

def setThread (s : State P M T) (t : T) (spill : Spill P M) : State P M T :=
  { s with threads := update s.threads t spill }

def act (s : State P M T) : Action P M T → Option (State P M T)
  | .store canonical src =>
    some { s with
      cache := s.cache.store canonical src
      created := if (s.cache.inner canonical).isSome then s.created
        else update s.created canonical (some src.value) }
  | .releaseText canonical => some { s with cache := s.cache.releaseText canonical }
  | .evict canonical => some { s with cache := s.cache.evict canonical }
  | .evictAll paths => some { s with cache := s.cache.evictAll paths }
  | .spill t canonical =>
    match s.threads t with
    | .idle => some (s.setThread t (.fetching canonical false))
    | _ => none
  | .fetch t =>
    match s.threads t with
    | .fetching canonical force =>
      let fetched := s.cache.fetch canonical force
      some ({ s with cache := fetched.1 }.setThread t
        (fetched.2.elim (.next force) fun src => .writing canonical src force))
    | _ => none
  | .write t =>
    match s.threads t with
    | .writing canonical src force =>
      some (s.setThread t (.settling canonical src (.store src.value) force))
    | _ => none
  | .fail t =>
    match s.threads t with
    | .writing _ _ force =>
      some ({ s with spilling := if force then none else s.spilling }.setThread t .idle)
    | _ => none
  | .settle t =>
    match s.threads t with
    | .settling canonical src spilled force =>
      some ({ s with cache := s.cache.settle canonical src spilled }.setThread t (.next force))
    | _ => none
  | .lock t =>
    match s.threads t, s.spilling with
    | .queued, none => some ({ s with spilling := some t }.setThread t .choosing)
    | _, _ => none
  | .choose t =>
    match s.threads t with
    | .choosing =>
      match s.cache.victim with
      | some victim => some (s.setThread t (.fetching victim true))
      | none => some ({ s with spilling := none }.setThread t .idle)
    | _ => none

/-- A source that the cache or a thread holds. -/
def Holds (s : State P M T) (src : Shared (PreprocessedSource P M)) : Prop :=
  (∃ path, s.cache.inner path = some (.resident src)) ∨ ∃ t, (s.threads t).held = some src

/-- One action of a thread; what is stored was allocated apart from all that is held. -/
def Step (s s' : State P M T) : Prop :=
  ∃ action, s.act action = some s' ∧
    ∀ canonical src, action = .store canonical src → ∀ other, s.Holds other →
      other.address ≠ src.address

/-- The states that the threads lead to, in whatever order they act. -/
def Reachable : State P M T → Prop := Relation.ReflTransGen Step {}

end State

section Ledger
variable [DecidableEq P]

namespace Cache

variable (c : Cache P M) (path : P)

lemma evictAll_cons (paths : List P) :
    c.evictAll (path :: paths) = (c.evict path).evictAll paths := by
  unfold evictAll evict
  congr 1
  funext other
  dsimp only
  by_cases hp : other = path
  · simp [hp]
  · simp [hp]

/-- The payload of a resident source is fetched unless it is small; else there is nothing to do. -/
lemma fetch_cases (force : Bool) : (∃ src, c.inner path = some (.resident src) ∧
      c.fetch path force =
        (c, if !force && payloadBytes src.value ≤ spillThreshold then none else some src)) ∨
    (c.inner path).bind CachedSource.residentBytes = none ∧
      c.fetch path force = ({ c with resident := c.resident.remove path }, none) := by
  cases he : c.inner path with
  | none => exact .inr ⟨rfl, by rw [fetch, he]⟩
  | some entry =>
    cases entry with
    | resident src => exact .inl ⟨src, rfl, by rw [fetch, he]⟩
    | spilled src | released src => exact .inr ⟨rfl, by rw [fetch, he]⟩

/-- The entry is replaced by its spilled payload only if it is the source that was written. -/
lemma settle_cases (src : Shared (PreprocessedSource P M)) (spilled : SpilledSource P M) :
    (∃ current, c.inner path = some (.resident current) ∧ current.address = src.address ∧
      c.settle path src spilled =
        { inner := update c.inner path (some (.spilled spilled))
          resident := c.resident.remove path }) ∨
    c.isResident path = true ∧ c.settle path src spilled = c ∨
    (c.inner path).bind CachedSource.residentBytes = none ∧
      c.settle path src spilled = { c with resident := c.resident.remove path } := by
  cases hc : c.isCurrent path src with
  | true =>
    have hentry :
        ∃ current, c.inner path = some (.resident current) ∧ current.address = src.address := by
      unfold isCurrent at hc
      split at hc
      · exact ⟨_, ‹_›, beq_iff_eq.mp hc⟩
      · cases hc
    obtain ⟨current, hentry, ha⟩ := hentry
    refine .inl ⟨current, hentry, ha, ?_⟩
    simp [settle, hc, isResident]
  | false =>
    have hsettle : c.settle path src spilled =
        if c.isResident path then c else { c with resident := c.resident.remove path } := by
      simp [settle, hc]
    cases hr : c.isResident path with
    | true => exact .inr (.inl ⟨rfl, by rw [hsettle, hr, if_pos rfl]⟩)
    | false =>
      refine .inr (.inr ⟨?_, by rw [hsettle, hr, if_neg Bool.false_ne_true]⟩)
      unfold isResident at hr
      cases hentry : c.inner path with
      | none => rfl
      | some entry => cases entry <;> simp_all [CachedSource.residentBytes]

end Cache

/-- The ledger has the resident entries, each with what it takes, and their total. -/
structure Cache.Agrees (c : Cache P M) : Prop where
  lookup : ∀ path, c.resident.paths.lookup path = (c.inner path).bind CachedSource.residentBytes
  bytes : c.resident.bytes = Lib.total c.resident.paths

lemma ResidentSources.lookup_remove (r : ResidentSources P) (path other : P) :
    (r.remove path).paths.lookup other = if other = path then none else r.paths.lookup other := by
  unfold remove
  split
  · split
    · subst other
      exact AList.lookup_erase path r.paths
    · exact AList.lookup_erase_ne ‹_›
  split
  · subst other
    assumption
  · rfl

namespace Cache.Agrees
variable {c : Cache P M} (h : c.Agrees)
include h

/-- An entry gives way to one that is not resident. -/
lemma update (path : P) {entry} (he : entry.bind CachedSource.residentBytes = none) :
    Agrees { inner := update c.inner path entry, resident := c.resident.remove path } := by
  refine ⟨fun other => ?_, ?_⟩
  rotate_left
  · unfold ResidentSources.remove
    split
    · rename_i bytes hb
      rw [h.bytes, ← Lib.total_erase hb, Nat.add_sub_cancel]
    · exact h.bytes
  dsimp only
  rw [ResidentSources.lookup_remove, update_apply]
  split
  · exact he.symm
  · exact h.lookup other

lemma remove {path : P} (hp : (c.inner path).bind CachedSource.residentBytes = none) :
    Agrees { c with resident := c.resident.remove path } := by
  have hupdate := h.update path hp
  rwa [update_eq_self] at hupdate

lemma store (path : P) (src : Shared (PreprocessedSource P M)) : (c.store path src).Agrees := by
  unfold Cache.store
  split
  · exact h
  rename_i hv
  have hnone : c.resident.paths.lookup path = none := by
    rw [h.lookup, hv]
    rfl
  refine ⟨fun other => ?_, ?_⟩
  · dsimp only
    rw [update_apply]
    split
    · subst other
      exact AList.lookup_insert _
    · rw [AList.lookup_insert_ne ‹_›]
      exact h.lookup other
  · rw [Lib.total_insert hnone, h.bytes, Nat.add_comm]

lemma releaseText (path : P) : (c.releaseText path).Agrees := by
  unfold Cache.releaseText
  split
  · exact h.update path rfl
  · exact h

lemma evict (path : P) : (c.evict path).Agrees := h.update path rfl

lemma evictAll (paths : List P) : (c.evictAll paths).Agrees := by
  induction paths generalizing c with
  | nil => exact ⟨fun path => by simpa [Cache.evictAll] using h.lookup path, h.bytes⟩
  | cons path paths ih =>
    rw [evictAll_cons]
    exact ih (h.evict path)

lemma fetch (path : P) (force : Bool) : (c.fetch path force).1.Agrees := by
  obtain ⟨src, -, heq⟩ | ⟨hnot, heq⟩ := fetch_cases c path force
  · rw [heq]
    exact h
  · rw [heq]
    exact h.remove hnot

lemma settle (path : P) (src : Shared (PreprocessedSource P M)) (spilled : SpilledSource P M) :
    (c.settle path src spilled).Agrees := by
  obtain ⟨current, -, -, heq⟩ | ⟨-, heq⟩ | ⟨hnot, heq⟩ := settle_cases c path src spilled
  · rw [heq]
    exact h.update path rfl
  · rwa [heq]
  · rw [heq]
    exact h.remove hnot

end Cache.Agrees
end Ledger

/-- Nothing new is resident or spilled. -/
def Cache.Shrinks (c c' : Cache P M) : Prop :=
  ∀ {path entry}, c'.inner path = some entry → c.inner path = some entry ∨
    ∃ src, entry = .released src

section Shrinks
variable [DecidableEq P] (c : Cache P M)

lemma update_eq_some {f : P → Option (CachedSource P M)} {path other : P} {new entry}
    (h : update f path new other = some entry) :
    f other = some entry ∨ other = path ∧ new = some entry := by
  rw [update_apply] at h
  split at h
  · exact .inr ⟨‹_›, h⟩
  · exact .inl h

lemma Cache.shrinks_releaseText (path : P) : c.Shrinks (c.releaseText path) := by
  unfold releaseText
  split
  · intro other entry he
    exact (update_eq_some he).imp_right fun ⟨_, hnew⟩ => ⟨_, (Option.some.inj hnew).symm⟩
  · exact .inl

lemma Cache.shrinks_evictAll (paths : List P) : c.Shrinks (c.evictAll paths) := by
  intro other entry he
  unfold evictAll at he
  dsimp only at he
  split at he
  · cases he
  · exact .inl he

lemma Cache.shrinks_evict (path : P) : c.Shrinks (c.evict path) := by
  intro other entry he
  obtain he | ⟨-, hnew⟩ := update_eq_some he
  · exact .inl he
  · cases hnew

lemma Cache.fetch_inner (path : P) (force : Bool) : (c.fetch path force).1.inner = c.inner := by
  obtain ⟨src, -, heq⟩ | ⟨-, heq⟩ := fetch_cases c path force <;> rw [heq]

lemma Cache.fetch_snd {path : P} {force : Bool} {src} (h : (c.fetch path force).2 = some src) :
    c.inner path = some (.resident src) := by
  obtain ⟨src', he, heq⟩ | ⟨-, heq⟩ := fetch_cases c path force
  · rw [heq] at h
    split at h
    · cases h
    · rw [he, Option.some.inj h]
  · rw [heq] at h
    cases h

end Shrinks

namespace State
variable {T : Type} [LinearOrder P] [DecidableEq T] {s s' : State P M T}

structure Sound (s : State P M T) : Prop where
  agrees : s.cache.Agrees
  resident :
      ∀ {path src}, s.cache.inner path = some (.resident src) → s.created path = some src.value
  spilled : ∀ {path spilled}, s.cache.inner path = some (.spilled spilled) →
    ∃ src, s.created path = some src ∧ spilled = .store src
  written : ∀ {t path src spilled force}, s.threads t = .settling path src spilled force →
    spilled = .store src.value
  /-- No address is that of two sources. -/
  unaliased : ∀ {src other}, s.Holds src → s.Holds other → src.address = other.address → src = other

omit [DecidableEq T] in
/-- The cache keeps entries, releases some, and spills what was stored. -/
lemma Sound.replace (h : s.Sound) {c : Cache P M} (ha : c.Agrees)
    (hinner : ∀ {path entry}, c.inner path = some entry → s.cache.inner path = some entry ∨
      (∃ src, entry = .released src) ∨ ∃ src, s.created path = some src ∧
        entry = .spilled (.store src)) :
    Sound { s with cache := c } := by
  have hresident : ∀ {path src}, c.inner path = some (.resident src) →
      s.cache.inner path = some (.resident src) := fun hp => by simpa using hinner hp
  have hholds : ∀ {src}, Holds { s with cache := c } src → s.Holds src :=
    Or.imp_left fun ⟨path, hp⟩ => ⟨path, hresident hp⟩
  refine ⟨ha, fun hp => h.resident (hresident hp), fun hp => ?_, h.written,
    fun hsrc ho => h.unaliased (hholds hsrc) (hholds ho)⟩
  obtain hp | ⟨_, hr⟩ | ⟨src, hc, hs⟩ := hinner hp
  · exact h.spilled hp
  · cases hr
  · exact ⟨src, hc, CachedSource.spilled.inj hs⟩

omit [DecidableEq T] in
lemma Sound.shrink (h : s.Sound) {c : Cache P M} (ha : c.Agrees) (hs : s.cache.Shrinks c) :
    Sound { s with cache := c } := h.replace ha fun hp => (hs hp).imp_right .inl

/-- A thread goes on with what it or the cache holds. -/
lemma Sound.setThread (h : s.Sound) (t : T) {spill : Spill P M}
    (hh : ∀ {src}, spill.held = some src → s.Holds src)
    (hw : ∀ {path src spilled force}, spill = .settling path src spilled force →
      spilled = .store src.value) : (s.setThread t spill).Sound := by
  have hholds : ∀ {src}, (s.setThread t spill).Holds src → s.Holds src := by
    rintro src (hp | ⟨t', ht'⟩)
    · exact .inl hp
    dsimp only [State.setThread] at ht'
    rw [update_apply] at ht'
    split at ht'
    · exact hh ht'
    · exact .inr ⟨t', ht'⟩
  refine ⟨h.agrees, h.resident, h.spilled, fun {t'} _ _ _ _ ht' => ?_,
    fun hsrc ho => h.unaliased (hholds hsrc) (hholds ho)⟩
  dsimp only [State.setThread] at ht'
  rw [update_apply] at ht'
  split at ht'
  · exact hw ht'
  · exact h.written ht'

variable {src : Shared (PreprocessedSource P M)}

omit [DecidableEq T] in
lemma Sound.store (h : s.Sound) (path : P)
    (hf : ∀ other, s.Holds other → other.address ≠ src.address) :
    Sound { s with
      cache := s.cache.store path src
      created := if (s.cache.inner path).isSome then s.created
        else update s.created path (some src.value) } := by
  have hagrees := h.agrees.store path src
  cases he : s.cache.inner path with
  | some entry =>
    have hstore : s.cache.store path src = s.cache := by rw [Cache.store, he]
    rw [hstore, Option.isSome_some]
    exact h
  | none =>
    have hinner : (s.cache.store path src).inner =
        update s.cache.inner path (some (.resident src)) := by
      rw [Cache.store, he]
    rw [Option.isSome_none, if_neg Bool.false_ne_true]
    have hholds : ∀ {other}, Holds { s with
        cache := s.cache.store path src
        created := update s.created path (some src.value) } other →
          other = src ∨ s.Holds other := by
      rintro other (⟨path', hp'⟩ | ht)
      · rw [hinner] at hp'
        obtain hp' | ⟨-, hnew⟩ := update_eq_some hp'
        · exact .inr (.inl ⟨path', hp'⟩)
        · exact .inl (CachedSource.resident.inj (Option.some.inj hnew)).symm
      · exact .inr (.inr ht)
    refine ⟨hagrees, fun {path' other} hp' => ?_, fun {path' spilled} hp' => ?_, h.written,
      fun hsrc ho ha => ?_⟩
    · dsimp only at hp' ⊢
      rw [hinner, update_apply] at hp'
      rw [update_apply]
      split at hp'
      · rw [if_pos ‹_›, CachedSource.resident.inj (Option.some.inj hp')]
      · rw [if_neg ‹_›]
        exact h.resident hp'
    · dsimp only at hp' ⊢
      rw [hinner, update_apply] at hp'
      rw [update_apply]
      split at hp'
      · cases hp'
      · rw [if_neg ‹_›]
        exact h.spilled hp'
    -- A source that is held elsewhere does not have the address of the one stored.
    obtain rfl | hold := hholds hsrc
    · obtain rfl | hold' := hholds ho
      · rfl
      · exact absurd ha.symm (hf _ hold')
    · obtain rfl | hold' := hholds ho
      · exact absurd ha (hf _ hold)
      · exact h.unaliased hold hold' ha

omit [DecidableEq T] in
/-- The source that was written is spilled only while it is the entry of its path. -/
lemma Sound.settle (h : s.Sound) {t : T} {path : P} {spilled} {force : Bool}
    (ht : s.threads t = .settling path src spilled force) :
    Sound { s with cache := s.cache.settle path src spilled } := by
  have hagrees := h.agrees.settle path src spilled
  obtain ⟨current, hc, ha, heq⟩ | ⟨-, heq⟩ | ⟨-, heq⟩ := s.cache.settle_cases path src spilled
  · have hheld : s.Holds src := .inr ⟨t, by rw [ht]; rfl⟩
    obtain rfl : current = src := h.unaliased (.inl ⟨path, hc⟩) hheld ha
    rw [heq] at hagrees ⊢
    refine h.replace hagrees fun hp' => (update_eq_some hp').imp_right ?_
    rintro ⟨rfl, hnew⟩
    rw [← Option.some.inj hnew, h.written ht]
    exact .inr ⟨current.value, h.resident hc, rfl⟩
  · rw [heq]
    exact h
  · rw [heq] at hagrees ⊢
    exact h.shrink hagrees fun hp => .inl hp

lemma Sound.fetch (h : s.Sound) (t : T) (path : P) (force : Bool) :
    Sound ({ s with cache := (s.cache.fetch path force).1 }.setThread t
      ((s.cache.fetch path force).2.elim (.next force) fun src => .writing path src force)) := by
  have hinner := s.cache.fetch_inner path force
  have hcache : Sound { s with cache := (s.cache.fetch path force).1 } :=
    h.shrink (h.agrees.fetch path force) fun {_ _} hp => .inl (by rwa [hinner] at hp)
  cases hsrc : (s.cache.fetch path force).2 with
  | none => exact hcache.setThread t (fun hh => by simp at hh) fun hs => by simp at hs
  | some src =>
    refine hcache.setThread t (fun {other} hh => .inl ⟨path, ?_⟩) nofun
    obtain rfl : src = other := Option.some.inj hh
    rw [hinner]
    exact s.cache.fetch_snd hsrc

omit [DecidableEq T] in
lemma Sound.setSpilling (h : s.Sound) (spilling : Option T) :
    Sound { s with spilling := spilling } :=
  ⟨h.agrees, h.resident, h.spilled, h.written, h.unaliased⟩

lemma Sound.act (h : s.Sound) {action} (hact : s.act action = some s')
    (hf : ∀ canonical src, action = .store canonical src →
      ∀ other, s.Holds other → other.address ≠ src.address) : s'.Sound := by
  cases action with
  | store path src =>
    cases hact
    exact h.store path (hf path src rfl)
  | releaseText path =>
    cases hact
    exact h.shrink (h.agrees.releaseText path) (s.cache.shrinks_releaseText path)
  | evict path =>
    cases hact
    exact h.shrink (h.agrees.evict path) (s.cache.shrinks_evict path)
  | evictAll paths =>
    cases hact
    exact h.shrink (h.agrees.evictAll paths) (s.cache.shrinks_evictAll paths)
  | spill t path =>
    simp only [State.act] at hact
    split at hact <;> cases hact
    exact h.setThread t nofun nofun
  | fetch t =>
    simp only [State.act] at hact
    split at hact <;> cases hact
    exact h.fetch t _ _
  | write t =>
    simp only [State.act] at hact
    split at hact <;> cases hact
    refine h.setThread t (fun hh => .inr ⟨t, ?_⟩) fun hs => ?_
    · rw [‹s.threads t = _›]
      exact hh
    · cases hs
      rfl
  | fail t | lock t =>
    simp only [State.act] at hact
    split at hact <;> cases hact
    exact (h.setSpilling _).setThread t nofun nofun
  | settle t =>
    simp only [State.act] at hact
    split at hact <;> cases hact
    exact (h.settle ‹_›).setThread t (fun hh => by simp at hh) fun hs => by simp at hs
  | choose t =>
    simp only [State.act] at hact
    split at hact
    · split at hact <;> cases hact
      · exact h.setThread t nofun nofun
      · exact (h.setSpilling _).setThread t nofun nofun
    · cases hact

omit [DecidableEq T] in
lemma sound_start : Sound ({} : State P M T) :=
  ⟨⟨fun _ => rfl, rfl⟩, nofun, nofun, nofun, by rintro src other (⟨path, hp⟩ | ⟨t, ht⟩) <;>
    contradiction⟩

lemma Reachable.sound (h : s.Reachable) : s.Sound := by
  induction h with
  | refl => exact sound_start
  | tail _ hs ih =>
    obtain ⟨action, hact, hf⟩ := hs
    exact ih.act hact hf

/-- The ledger has the resident entries and their total, and an entry that is resident or spilled
has the text and the line map of the store that made it. -/
structure Consistent (s : State P M T) : Prop where
  paths : ∀ path bytes, s.cache.resident.paths.lookup path = some bytes ↔
    ∃ src, s.cache.inner path = some (.resident src) ∧ bytes = payloadBytes src.value
  bytes : s.cache.resident.bytes = (s.cache.resident.paths.entries.map Sigma.snd).sum
  resident : ∀ path src, s.cache.inner path = some (.resident src) → s.created path = some src.value
  spilled : ∀ path spilled, s.cache.inner path = some (.spilled spilled) →
    ∃ src loaded, s.created path = some src ∧ spilled.load = .ok loaded ∧
      loaded.text = src.text ∧ loaded.lineMap = src.lineMap ∧ loaded.metadata = src.metadata

/-- Whatever the order in which the threads act. -/
theorem consistent_of_reachable (s : State P M T) (h : s.Reachable) : s.Consistent := by
  have hsound := h.sound
  refine ⟨fun path bytes => ?_, hsound.agrees.bytes, fun path src => hsound.resident,
    fun path spilled hpath => ?_⟩
  · rw [hsound.agrees.lookup, Option.bind_eq_some_iff]
    refine ⟨fun ⟨entry, hentry, hbytes⟩ => ?_, fun ⟨src, hsrc, hbytes⟩ =>
      ⟨_, hsrc, by rw [hbytes]; rfl⟩⟩
    cases entry with
    | resident src => exact ⟨src, hentry, (Option.some.inj hbytes).symm⟩
    | spilled src | released src => cases hbytes
  · obtain ⟨src, hcreated, rfl⟩ := hsound.spilled hpath
    exact ⟨src, _, hcreated, load_store src, rfl, rfl, rfl⟩

/-- While a source is written it is evicted and another one stored: the spill leaves the new one. -/
theorem consistent_of_race : ∃ (s : State ℕ Unit Unit) (old new : PreprocessedSource ℕ Unit),
    s.Reachable ∧ s.cache.inner 0 = some (.resident ⟨2, new⟩) ∧ s.cache.resident.bytes = 1 ∧
    s.threads () = .queued ∧ old.text ≠ new.text ∧ s.Consistent := by
  have hstart : State.Reachable ({} : State ℕ Unit Unit) := .refl
  have hstored := hstart.tail ⟨.store 0 ⟨1, "x", {}, 20000, ()⟩, rfl, fun _ _ _ other hother => by
    obtain ⟨path, hpath⟩ | ⟨t, ht⟩ := hother <;> contradiction⟩
  have hspill := hstored.tail ⟨.spill () 0, rfl, nofun⟩
  have hfetched := hspill.tail ⟨.fetch (), rfl, nofun⟩
  have hwritten := hfetched.tail ⟨.write (), rfl, nofun⟩
  have hevicted := hwritten.tail ⟨.evict 0, rfl, nofun⟩
  have hreplaced :=
    hevicted.tail ⟨.store 0 ⟨2, "y", {}, 0, ()⟩, rfl, fun _ src haction other hother => by
    obtain ⟨-, rfl⟩ := Action.store.inj haction
    obtain ⟨path, hpath⟩ | ⟨t, ht⟩ := hother
    · cases path <;> cases hpath
    · cases ht
      decide⟩
  have hsettled := hreplaced.tail ⟨.settle (), rfl, nofun⟩
  exact ⟨_, ⟨"x", {}, 20000, ()⟩, ⟨"y", {}, 0, ()⟩, hsettled, rfl, rfl, rfl, by decide,
    consistent_of_reachable _ hsettled⟩

end State

end Pathologist.Sources
