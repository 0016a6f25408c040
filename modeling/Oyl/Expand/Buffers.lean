import Oyl.Expand.Documents
import Oyl.Expand.Merge
import Oyl.Expand.Resolve

/-!
# The buffers of an expansion

What a pass writes stays within its limit, and a pass that fails for another reason than
its limit has a limit above half of the range of `int`.
-/

namespace Oyl

/-! ### The limit -/

theorem expansionLimit_pos (p : Parser) (n : Nat) : 0 < p.expansionLimit n := by
  unfold Parser.expansionLimit intMax
  split
  · split <;> omega
  · dsimp only
    split <;> omega

theorem expansionLimit_large {p : Parser} {n : Nat} (large : intMax / 2 < p.expansionLimit n) :
    intMax / 2 < p.maxEvents := by
  have half : intMax / 2 = 1073741823 := rfl
  unfold Parser.expansionLimit at large
  split at large
  · split at large <;> omega
  · dsimp only at large
    split at large <;> omega

/-! ### Passes -/

/-- A buffer that holds no more than its limit, and that fails for another reason only
with a limit above half of the range of `int`. -/
structure EvtBuf.Holds (limit : Int) (b : EvtBuf) : Prop where
  bound : b.limit = limit
  within : (b.data.length : Int) ≤ limit
  failed : b.oom = true → b.limited = false → intMax / 2 < limit

section

variable {limit : Int} {events : List Event} {anchors : List AnchorEntry}

theorem EvtBuf.holds_init (positive : 0 < limit) (evtLen : Nat) :
    (EvtBuf.init evtLen limit).Holds limit where
  bound := rfl
  within := by
    rw [init_data, List.length_nil]
    exact Int.le_of_lt positive
  failed := Bool.noConfusion

theorem EvtBuf.Holds.push {b : EvtBuf} (holds : b.Holds limit) (positive : 0 < limit)
    (evt : Event) : (b.push evt).Holds limit := by
  obtain ⟨rfl, within, failed⟩ := holds
  have kept : (b.push evt).limit = b.limit ∧
      ((b.push evt).oom = true → (b.push evt).limited = false → intMax / 2 < b.limit) := by
    rw [EvtBuf.push]
    split
    · exact ⟨rfl, failed⟩
    split
    · exact ⟨rfl, fun _ => Bool.noConfusion⟩
    rename_i room
    simp only [Bool.and_eq_true, decide_eq_true_eq, not_and, ge_iff_le, Int.not_le] at room
    have room := room positive
    split
    · split
      · exact ⟨rfl, fun _ _ => by omega⟩
      · exact ⟨rfl, failed⟩
    · exact ⟨rfl, failed⟩
  exact ⟨kept.1, pushAll_within [evt] positive within, kept.2⟩

theorem EvtBuf.Holds.pushAll {b : EvtBuf} (holds : b.Holds limit) (positive : 0 < limit)
    (more : List Event) : (b.pushAll more).Holds limit := by
  induction more generalizing b with
  | nil => exact holds
  | cons evt more ih => exact ih (holds.push positive evt)

theorem mergeEntry_holds (positive : 0 < limit) {st : MergeState} (holds : st.out.Holds limit)
    (e : Entry) : (mergeEntry events st e).out.Holds limit := by
  rw [mergeEntry]
  split
  · exact holds
  · exact holds.pushAll positive _

theorem mergeFromMapping_holds (positive : 0 < limit) (start stop : Nat) {st : MergeState}
    (holds : st.out.Holds limit) : (mergeFromMapping events start stop st).out.Holds limit := by
  rw [mergeFromMapping]
  induction entries events start stop generalizing st with
  | nil => exact holds
  | cons e rest ih => exact ih (mergeEntry_holds positive holds e)

theorem mergeSource_holds (positive : 0 < limit) {pos : Nat} {st st' : MergeState}
    (holds : st.out.Holds limit) (ok : mergeSource events anchors pos st = .ok st') :
    st'.out.Holds limit := by
  rw [mergeSource] at ok
  split at ok
  · cases ok
    exact mergeFromMapping_holds positive _ _ holds
  · split at ok
    · cases ok
    · dsimp only at ok
      split at ok <;> cases ok
      exact mergeFromMapping_holds positive _ _ holds
  · cases ok

theorem mergeSources_holds (positive : 0 < limit) {stop fuel pos : Nat} {st st' : MergeState}
    (holds : st.out.Holds limit)
    (ok : mergeSources events anchors stop fuel pos st = .ok st') : st'.out.Holds limit := by
  induction fuel generalizing pos st with
  | zero =>
      cases ok
      exact holds
  | succ fuel ih =>
      rw [mergeSources] at ok
      split at ok
      · cases source : mergeSource events anchors pos st with
        | error msg =>
            rw [source] at ok
            cases ok
        | ok next =>
            rw [source] at ok
            exact ih (mergeSource_holds positive holds source) ok
      · cases ok
        exact holds

theorem processMergeKeys_holds (positive : 0 < limit) {all : List Entry} {st st' : MergeState}
    (holds : st.out.Holds limit) (ok : processMergeKeys events anchors all st = .ok st') :
    st'.out.Holds limit := by
  induction all generalizing st with
  | nil =>
      cases ok
      exact holds
  | cons e rest ih =>
      rw [processMergeKeys] at ok
      split at ok
      · split at ok
        · cases ok
        · rename_i next processed
          refine ih ?_ ok
          rw [processMergeValue] at processed
          split at processed
          · exact mergeSource_holds positive holds processed
          · exact mergeSources_holds positive holds processed
      · exact ih holds ok

theorem rebuildMapping_holds (positive : 0 < limit) {start stop : Nat} {out out' : EvtBuf}
    (holds : out.Holds limit) (ok : rebuildMapping events anchors start stop out = .ok out') :
    out'.Holds limit := by
  have explicit (all : List Entry) {b : EvtBuf} (holds : b.Holds limit) :
      (all.foldl (fun out e => out.pushAll (slice events e.keyStart e.valEnd)) b).Holds limit := by
    induction all generalizing b with
    | nil => exact holds
    | cons e rest ih => exact ih (holds.pushAll positive _)
  unfold rebuildMapping at ok
  dsimp only at ok
  generalize keys : processMergeKeys _ _ _ _ = result at ok
  cases result with
  | error e => cases ok
  | ok st =>
      cases ok
      exact (processMergeKeys_holds positive (explicit _ (holds.push positive _)) keys).push
        positive _

theorem mergePassFrom_holds (positive : 0 < limit) {fuel i : Nat} {out out' : EvtBuf}
    {changed changed' : Bool} (holds : out.Holds limit)
    (ok : mergePassFrom events anchors fuel i out changed = .ok (out', changed')) :
    out'.Holds limit := by
  induction fuel generalizing i out changed with
  | zero =>
      cases ok
      exact holds
  | succ fuel ih =>
      rw [mergePassFrom] at ok
      split at ok
      · dsimp only at ok
        split at ok
        · cases rebuilt : rebuildMapping events anchors i (nodeEnd events i) out with
          | error e =>
              rw [rebuilt] at ok
              cases ok
          | ok next =>
              rw [rebuilt] at ok
              exact ih (rebuildMapping_holds positive holds rebuilt) ok
        · exact ih (holds.push positive _) ok
      · cases ok
        exact holds

/-- No pass makes more events than its limit. -/
theorem mergePass_holds (positive : 0 < limit) {out : EvtBuf} {changed : Bool}
    (ok : mergePass events limit = .ok (out, changed)) : out.Holds limit :=
  mergePassFrom_holds positive (EvtBuf.holds_init positive _) ok

theorem resolvePass_holds (positive : 0 < limit) (events : List Event) (cyclic : List Bool) :
    (resolvePass events cyclic limit).1.Holds limit := by
  have one (b : EvtBuf × Bool) (evt : Event) (holds : b.1.Holds limit) :
      (resolveEvent events (atblBuild events) cyclic b evt).1.Holds limit := by
    rw [resolveEvent]
    split
    · exact holds
    split
    · split
      · exact holds.push positive _
      · split
        · exact holds.push positive _
        · exact holds.pushAll positive _
    · exact holds.push positive _
  have all (rest : List Event) (b : EvtBuf × Bool) (holds : b.1.Holds limit) :
      (rest.foldl (resolveEvent events (atblBuild events) cyclic) b).1.Holds limit := by
    induction rest generalizing b with
    | nil => exact holds
    | cons evt rest ih => exact ih _ (one b evt holds)
  exact all events _ (EvtBuf.holds_init positive _)

end

end Oyl
