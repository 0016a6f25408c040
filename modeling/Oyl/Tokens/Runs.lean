import Oyl.Tokens.Gaps

/-!
# Runs of the tokenizer

A run reads token after token from the start of a text.
-/

namespace Oyl

open StateError

/-- What one call of `scanToken` does. -/
inductive ScanStep (text : Bytes) (s : Scanner) (tok : Token) (s' : Scanner) : Prop
  | streamStart : s.streamStarted = false → tok = tokSimple .streamStart s.mark s.mark →
      s' = { s with streamStarted := true } → ScanStep text s tok s'
  | atEnd {q : Scanner} : s.streamStarted = true → Gap text s q → text.length ≤ q.pos →
      tok = tokSimple (if s.streamEnded then .none else .streamEnd) q.mark q.mark →
      Alike { q with streamEnded := true } s' → ScanStep text s tok s'
  | token {q : Scanner} : s.streamStarted = true → Gap text s q → q.AtToken text →
      scanAtToken q = .ok tok s' → ScanStep text s tok s'

/-- The tokens read from the start of a text, all in states that are `allowed`. -/
inductive Scanned (text : Bytes) (allowed : Scanner → Prop) : List Token → Scanner → Prop
  | new : Scanned text allowed [] (Scanner.new text)
  | token {toks : List Token} {s s' : Scanner} {tok : Token} : Scanned text allowed toks s →
      allowed s → scanToken s = .ok tok s' → Scanned text allowed (toks ++ [tok]) s'

/-- The first `n` tokens of a text, if all are read in `allowed` states and none is
an error. -/
def scanTokens (text : Bytes) (allowed : Scanner → Prop) [DecidablePred allowed] :
    Nat → Option (List Token × Scanner)
  | 0 => some ([], Scanner.new text)
  | n + 1 => do
      let (toks, s) ← scanTokens text allowed n
      if allowed s then
        match scanToken s with
        | .ok tok s' => some (toks ++ [tok], s')
        | .error _ _ => none
      else none

/-- A scanner between two tokens. -/
structure Scanner.Between (text : Bytes) (s : Scanner) : Prop where
  reads : s.Reads text
  pending : s.pending = []
  first : s.begins = (Scanner.new text).begins
  begun : s.begins ≤ s.pos
  opens : s.mark.Opens text s.begins

section

variable {text : Bytes} {allowed : Scanner → Prop} {s s' : Scanner} {tok : Token}
  {toks : List Token}

theorem scanToken_reading (reads : s.Reads text) (pending : s.pending = [])
    (ok : scanToken s = .ok tok s') : ScanStep text s tok s' := by
  rw [scanToken, get_bind_eq, pending] at ok
  dsimp only at ok
  split at ok
  · rename_i fresh
    cases ok
    exact .streamStart (by simpa using fresh) rfl (by rw [pending])
  rename_i started
  simp only [Bool.not_eq_true', Bool.not_eq_false] at started
  obtain ⟨_, q, skipped, rest⟩ := bind_eq_ok ok
  have gap := skipBlanksAndComments_gap reads skipped
  have streamEnded : q.streamEnded = s.streamEnded :=
    congrArg (fun settings => settings.2.2.2) gap.moves.settings
  rw [get_bind_eq] at rest
  split at rest
  · rename_i ended
    have outside := gap.moves.reads.atEnd_iff.mp ended
    split at rest
    · rename_i notYet
      have unrolled := Alike.unrollIndents { q with streamEnded := true } (-1)
      cases rest
      refine .atEnd started gap outside ?_ unrolled
      rw [if_neg (by simpa [streamEnded] using notYet)]
      exact congrArg (fun m => tokSimple .streamEnd m m) unrolled.mark
    · rename_i already
      simp only [Bool.not_eq_true', Bool.not_eq_false] at already
      cases rest
      refine .atEnd started gap outside ?_ ⟨rfl, rfl, ?_, rfl⟩
      · rw [if_pos (streamEnded ▸ already)]
      · simp [Scanner.settings, already]
  · rename_i notEnded
    have atToken : q.AtToken text :=
      gap.last.resolve_left fun outside => notEnded (gap.moves.reads.atEnd_iff.mpr outside)
    exact .token started gap atToken rest

theorem scanToken_step (between : s.Between text) (ok : scanToken s = .ok tok s') :
    ScanStep text s tok s' :=
  scanToken_reading between.reads between.pending ok

theorem scanned_of_scanTokens [DecidablePred allowed] {n : Nat}
    (scanned : scanTokens text allowed n = some (toks, s)) : Scanned text allowed toks s := by
  induction n generalizing toks s with
  | zero =>
      cases scanned
      exact .new
  | succ n ih =>
      rw [scanTokens, Option.bind_eq_bind, Option.bind_eq_some_iff] at scanned
      obtain ⟨⟨before, q⟩, isBefore, last⟩ := scanned
      dsimp only at last
      split at last
      · rename_i isAllowed
        cases ok : scanToken q with
        | ok tok s' =>
            rw [ok] at last
            cases last
            exact (ih isBefore).token isAllowed ok
        | error status s' =>
            rw [ok] at last
            cases last
      · cases last

/-- A run found by evaluation. -/
theorem exists_scanned (text : Bytes) (allowed : Scanner → Prop) [DecidablePred allowed] (n : Nat)
    (holds : List Token → Prop) [DecidablePred holds]
    (found : ((scanTokens text allowed n).any fun run => holds run.1) = true) :
    ∃ toks s, Scanned text allowed toks s ∧ holds toks := by
  obtain ⟨run, isRun, property⟩ := (Option.any_eq_true _ _).mp found
  exact ⟨run.1, run.2, scanned_of_scanTokens isRun, of_decide_eq_true property⟩

theorem Scanner.new_between (text : Bytes) : (Scanner.new text).Between text where
  reads := by
    refine ⟨rfl, rfl, ?_⟩
    simp only [Scanner.new]
    split
    · rename_i mark
      have long := congrArg List.length (beq_iff_eq.mp mark)
      simp only [List.length_take, List.length_cons, List.length_nil] at long
      omega
    · exact Nat.zero_le _
  pending := rfl
  first := rfl
  begun := Nat.le_refl _
  opens := fun _ => rfl

/-- The mark after a gap. -/
theorem Gap.opens {q : Scanner} (gap : Gap text s q) (between : s.Between text) :
    q.mark.Opens text q.begins := by
  rw [gap.moves.begins]
  exact gap.moves.path.opens between.begun between.opens

theorem Gap.begun {q : Scanner} (gap : Gap text s q) (between : s.Between text) :
    q.begins ≤ q.pos := by
  rw [gap.moves.begins]
  exact Nat.le_trans between.begun gap.moves.pos_le

theorem Gap.between {q : Scanner} (gap : Gap text s q) (between : s.Between text) :
    q.Between text where
  reads := gap.moves.reads
  pending := (congrArg (fun settings => settings.2.1) gap.moves.settings).trans between.pending
  first := gap.moves.begins.trans between.first
  begun := gap.begun between
  opens := gap.opens between

theorem ScanStep.between (step : ScanStep text s tok s') (between : s.Between text) :
    s'.Between text := by
  cases step with
  | streamStart _ _ isNext =>
      subst isNext
      exact ⟨⟨between.reads.buf, between.reads.len, between.reads.inside⟩, between.pending,
        between.first, between.begun, between.opens⟩
  | @atEnd q _ gap _ _ alike =>
      have after := gap.between between
      have reads : ({ q with streamEnded := true } : Scanner).Reads text :=
        ⟨after.reads.buf, after.reads.len, after.reads.inside⟩
      refine ⟨(alike.moves reads : Moves text anyLine noEscape _ _).reads, ?_, ?_, ?_, ?_⟩
      · exact (congrArg (fun settings => settings.2.1) alike.settings).trans after.pending
      · exact alike.begins.trans after.first
      · rw [alike.begins, alike.pos]
        exact after.begun
      · rw [alike.begins, alike.mark]
        exact after.opens
  | token _ gap atToken ok =>
      have after := gap.between between
      obtain ⟨at', _⟩ := scanAtToken_at atToken ok
      have moves := at'.spans.moves
      refine ⟨moves.reads, ?_, moves.begins.trans after.first, ?_, ?_⟩
      · exact (congrArg (fun settings => settings.2.1) moves.settings).trans after.pending
      · rw [moves.begins]
        exact Nat.le_trans after.begun moves.pos_le
      · rw [moves.begins]
        exact at'.opens after.begun after.opens

/-- Every state that a run reaches. -/
theorem Scanned.between (run : Scanned text allowed toks s) : s.Between text := by
  induction run with
  | new => exact Scanner.new_between text
  | token _ _ ok ih => exact (scanToken_step ih ok).between ih

end

end Oyl
