import Mathlib.Data.UInt
import Oyl.Logic.RollingHash
import Oyl.Events.DocumentFrame
import Oyl.Parser.Driver

/-!
# The signature of the delivered events

After a fallback the eager parser produces the events since the checkpoint again, and
`skip_delivered` compares a signature of their types.  The signature is a rolling
hash, so that it does not matter in how many chunks the events come.
-/

namespace Oyl

open StateError

open scoped UInt64.CommRing

/-- The signature of a list of events, accumulated from zero. -/
def signature (events : List Event) : UInt64 := events.foldl sigStep 0

theorem signature_eq_hash (events : List Event) :
    signature events =
      RollingHash.hash 31 (fun evt : Event => UInt64.ofNat evt.type.toNat) events := rfl

theorem foldl_sigStep (initial : List Event) (events : List Event) :
    events.foldl sigStep (signature initial) = signature (initial ++ events) := by
  rw [signature, signature, List.foldl_append]

/-- Only the types of the events count. -/
theorem signature_congr {left right : List Event}
    (same : left.map Event.type = right.map Event.type) : signature left = signature right := by
  refine RollingHash.hash_congr 31 _ ?_
  have digits := congrArg (List.map fun type : EventType => UInt64.ofNat type.toNat) same
  rw [List.map_map, List.map_map] at digits
  exact digits

theorem pow31Loop_eq (fuel n : Nat) (enough : n ≤ fuel) (result base : UInt64) :
    pow31Loop fuel n result base = result * base ^ n := by
  induction fuel generalizing n result base with
  | zero =>
      obtain rfl := Nat.le_zero.mp enough
      rw [pow31Loop, pow_zero, mul_one]
  | succ fuel ih =>
      rw [pow31Loop]
      split
      · rename_i stop
        rw [beq_iff_eq.mp stop, pow_zero, mul_one]
      · rename_i go
        have smaller : n / 2 ≤ fuel := by
          have : n ≠ 0 := fun zero => go (beq_iff_eq.mpr zero)
          omega
        rw [ih _ smaller, RollingHash.pow_halve base n, ← mul_assoc]
        split
        · rename_i odd
          rw [if_pos (beq_iff_eq.mp odd)]
        · rename_i even
          rw [if_neg fun odd => even (beq_iff_eq.mpr odd), mul_one]

theorem pow31_eq (n : Nat) : pow31 n = 31 ^ n := by
  rw [pow31, pow31Loop_eq n n (Nat.le_refl n), one_mul]

/-- The signature of what was delivered since a checkpoint. -/
theorem signature_since (before since : List Event) :
    signature (before ++ since) - signature before * pow31 since.length = signature since := by
  rw [pow31_eq, signature_eq_hash, signature_eq_hash, signature_eq_hash]
  exact RollingHash.hash_append_sub 31 _ before since

/-! ### What was delivered before a fallback -/

/-- The parser delivered `before` up to its checkpoint and `since` after it. -/
structure Parser.HasDelivered (p : Parser) (before since : List Event) : Prop where
  count : p.eventsDelivered = (before ++ since).length
  sig : p.deliveredSig = signature (before ++ since)
  ckptDelivered : p.ckptDelivered = before.length
  ckptSig : p.ckptSig = signature before
  noCkpt : p.ckpt = none → before = []

theorem Parser.HasDelivered.new (input : Bytes) (o : Options) :
    ((Parser.new input).configure o).HasDelivered [] [] :=
  ⟨rfl, rfl, rfl, rfl, fun _ => rfl⟩

theorem Parser.HasDelivered.takeQueued {p p' : Parser} {before since : List Event} {evt : Event}
    {delivered : Option Event} (has : p.HasDelivered before since)
    (ok : takeQueued evt p = .ok delivered p') : p'.HasDelivered before (since ++ [evt]) := by
  cases ok
  refine ⟨?_, ?_, has.ckptDelivered, has.ckptSig, has.noCkpt⟩
  · have count := has.count
    rw [List.length_append] at count
    rw [List.length_append, List.length_append, List.length_singleton, ← Nat.add_assoc, ← count]
  · have sig := has.sig
    rw [← List.append_assoc, ← foldl_sigStep, ← sig]
    rfl

theorem Parser.HasDelivered.checkpoint {p p' : Parser} {before since : List Event} {a : Unit}
    (has : p.HasDelivered before since) (ok : incCheckpoint p = .ok a p') :
    p'.HasDelivered before since ∨ p'.HasDelivered (before ++ since) [] := by
  have step := (run_modify _ p).symm.trans ok
  split at step
  · cases step
    exact .inl has
  split at step
  · cases step
    exact .inl has
  · cases step
    refine .inr ⟨?_, ?_, has.count, has.sig, fun none => by cases none⟩
    · rw [List.append_nil]
      exact has.count
    · rw [List.append_nil]
      exact has.sig

/-- A checkpoint was saved somewhere in what the parser delivered. -/
def Parser.Accounts (p : Parser) (delivered : List Event) : Prop :=
  ∃ before since, delivered = before ++ since ∧ p.HasDelivered before since

theorem Parser.HasDelivered.congr {p q : Parser} {before since : List Event}
    (same : q.audit = p.audit) (has : p.HasDelivered before since) :
    q.HasDelivered before since := by
  simp only [Parser.audit, Audit.mk.injEq] at same
  obtain ⟨_, count, sig, ckpt, ckptDelivered, ckptSig, _⟩ := same
  exact ⟨count.trans has.count, sig.trans has.sig, ckptDelivered.trans has.ckptDelivered,
    ckptSig.trans has.ckptSig, fun none => has.noCkpt (ckpt.symm.trans none)⟩

theorem Parser.Accounts.congr {p q : Parser} {delivered : List Event}
    (same : q.audit = p.audit) (accounts : p.Accounts delivered) : q.Accounts delivered := by
  obtain ⟨before, since, whole, has⟩ := accounts
  exact ⟨before, since, whole, has.congr same⟩

/-! ### Skipping them -/

/-- The counters that `skip_delivered` uses. -/
def Parser.skips (p : Parser) : Nat × UInt64 × UInt64 := (p.skipN, p.skipSig, p.skipGot)

/-- The parser skips the events `since`, and was given `again` for them so far. -/
def Parser.Skipping (p : Parser) (since again : List Event) : Prop :=
  p.skips =
    (since.length - again.length, signature since, signature (again.take since.length))

theorem Parser.HasDelivered.skipping {p : Parser} {before since : List Event}
    (has : p.HasDelivered before since) : p.fallBack.Skipping since [] := by
  have count : p.eventsDelivered - p.ckptDelivered = since.length := by
    rw [has.count, has.ckptDelivered, List.length_append, Nat.add_sub_cancel_left]
  rw [Parser.Skipping, List.take_nil, List.length_nil, Nat.sub_zero]
  cases saved : p.ckpt with
  | none =>
      obtain rfl := has.noCkpt saved
      have skips : p.fallBack.skips = (p.eventsDelivered, p.deliveredSig, 0) := by
        rw [Parser.fallBack, saved]
        rfl
      rw [skips, has.count, has.sig]
      rfl
  | some scanner =>
      have skips : p.fallBack.skips = (p.eventsDelivered - p.ckptDelivered,
          p.deliveredSig - p.ckptSig * pow31 (p.eventsDelivered - p.ckptDelivered), 0) := by
        rw [Parser.fallBack, saved]
        rfl
      rw [skips, count, has.sig, has.ckptSig, signature_since]
      rfl

/-- Does `skip_delivered` reject what was given again? -/
def Rejects (since again : List Event) (ended : Bool) : Prop :=
  (since.length ≤ again.length ∧ signature (again.take since.length) ≠ signature since) ∨
    (again.length < since.length ∧ ended = true)

/-- What `skip_delivered` does with one more chunk. -/
theorem Parser.Skipping.step {p : Parser} {since again : List Event}
    (skipping : p.Skipping since again) :
    (∃ p', skipDelivered p = .ok () p' ∧ p'.Skipping since (again ++ p.events)) ∨
      ((∃ p', skipDelivered p = .error (.status .parse) p') ∧
        Rejects since (again ++ p.events) p.streamEnded) := by
  simp only [Parser.Skipping, Parser.skips, Prod.mk.injEq] at skipping
  obtain ⟨skipN, skipSig, skipGot⟩ := skipping
  have taken : p.events.take (min p.skipN p.evtLen) = p.events.take p.skipN := by
    rw [Parser.evtLen, ← List.take_eq_take_min]
  have got : (p.events.take (min p.skipN p.evtLen)).foldl sigStep p.skipGot =
      signature ((again ++ p.events).take since.length) := by
    rw [taken, skipGot, foldl_sigStep, List.take_append, skipN]
  have rest : p.skipN - min p.skipN p.evtLen = since.length - (again ++ p.events).length := by
    rw [List.length_append, skipN, Parser.evtLen]
    omega
  let p' : Parser := { p with
    skipGot := signature ((again ++ p.events).take since.length)
    evtCursor := min p.skipN p.evtLen
    skipN := since.length - (again ++ p.events).length }
  have run : skipDelivered p =
      (if (p'.skipN == 0 && p'.skipGot != p'.skipSig) || (p'.skipN > 0 && p'.streamEnded) then do
        set { p' with streamEnded := true }
        parseError ("input not supported by the incremental parser (please report); " ++
          "parse with merge keys or alias resolution enabled")
      else Pure.pure ()) p' := by
    rw [skipDelivered, get_bind_eq]
    simp only [got, rest]
    rfl
  rw [run]
  split
  · rename_i fails
    refine .inr ⟨⟨_, rfl⟩, ?_⟩
    simp only [p', Bool.or_eq_true, Bool.and_eq_true, beq_iff_eq, bne_iff_ne, ne_eq,
      decide_eq_true_eq, skipSig] at fails
    rcases fails with ⟨full, differ⟩ | ⟨short, ended⟩
    · exact .inl ⟨Nat.sub_eq_zero_iff_le.mp full, differ⟩
    · exact .inr ⟨Nat.lt_of_sub_pos short, ended⟩
  · refine .inl ⟨p', rfl, ?_⟩
    simp only [Parser.Skipping, Parser.skips, p', skipSig]

/-- `skip_delivered` accepted these chunks one after the other.  Between two calls
anything may change but its counters. -/
inductive Skipped (start : Parser) : List (List Event) → Parser → Prop where
  | none : Skipped start [] start
  | chunk {chunks : List (List Event)} {p q q' : Parser} :
      Skipped start chunks p → q.skips = p.skips → 0 < q.skipN →
      skipDelivered q = .ok () q' → Skipped start (chunks ++ [q.events]) q'

theorem Skipped.skipping {start p : Parser} {chunks : List (List Event)} {since : List Event}
    (skipped : Skipped start chunks p) (first : start.Skipping since []) :
    p.Skipping since chunks.flatten := by
  induction skipped with
  | none => exact first
  | chunk _ same _ ok ih =>
      rename_i chunks p q q' _ _
      have here : q.Skipping since chunks.flatten := same.trans ih
      rw [List.flatten_append, List.flatten_singleton]
      rcases here.step with ⟨next, accepts, skipping⟩ | ⟨⟨next, fails⟩, _⟩
      · rw [ok] at accepts
        cases accepts
        exact skipping
      · rw [ok] at fails
        cases fails

/-- The events that were given again are of other types, or the stream ended early. -/
def Differs (since again : List Event) (ended : Bool) : Prop :=
  (since.length ≤ again.length ∧
    (again.take since.length).map Event.type ≠ since.map Event.type) ∨
    (again.length < since.length ∧ ended = true)

theorem Rejects.differs {since again : List Event} {ended : Bool}
    (rejects : Rejects since again ended) : Differs since again ended := by
  rcases rejects with ⟨full, differ⟩ | early
  · exact .inl ⟨full, fun types => differ (signature_congr types)⟩
  · exact .inr early

/-- The signature that the fallback computes is the one that the same events give again,
in whatever chunks, so only other types or an early end are reported. -/
theorem fallback_signature {p : Parser} {before since : List Event}
    (has : p.HasDelivered before since) :
    p.deliveredSig - p.ckptSig * pow31 since.length = signature since ∧
    ∀ chunks q, Skipped p.fallBack chunks q →
      q.skipSig = signature since ∧
      q.skipGot = signature (chunks.flatten.take since.length) ∧
      ∀ next stop stopped, next.skips = q.skips →
        skipDelivered next = .error stop stopped →
        Differs since (chunks.flatten ++ next.events) next.streamEnded := by
  constructor
  · rw [has.sig, has.ckptSig, signature_since]
  · intro chunks q skipped
    have skipping := skipped.skipping has.skipping
    have counters := skipping
    simp only [Parser.Skipping, Parser.skips, Prod.mk.injEq] at counters
    refine ⟨counters.2.1, counters.2.2, ?_⟩
    intro next stop stopped same fails
    have here : next.Skipping since chunks.flatten := same.trans skipping
    rcases here.step with ⟨_, accepts, _⟩ | ⟨_, rejects⟩
    · rw [fails] at accepts
      cases accepts
    · exact rejects.differs

end Oyl
