import Mathlib.Data.List.TakeWhile
import Oyl.Expand.AnchorTable

/-!
# The rule of anchor binding

Which definition an alias is bound to, and how the original names come back.
-/

namespace Oyl

/-- The event at `j` defines the anchor `name`. -/
def DefinesAt (events : List Event) (j : Nat) (name : Bytes) : Prop :=
  ∃ evt, events[j]? = some evt ∧ evt.type ≠ .docStart ∧ evt.anchorName = some name

def StartsDocument (events : List Event) (k : Nat) : Prop :=
  ∃ evt, events[k]? = some evt ∧ evt.type = .docStart

/-- The last definition of `name` in the document before position `limit`. -/
structure Latest (events : List Event) (limit : Nat) (name : Bytes) (j : Nat) : Prop where
  before : j < limit
  defines : DefinesAt events j name
  last : ∀ k, j < k → k < limit → ¬DefinesAt events k name ∧ ¬StartsDocument events k

/-- The names of anchors and aliases have no NUL. -/
def PlainNames (events : List Event) : Prop :=
  ∀ evt ∈ events, (∀ name ∈ evt.anchor, 0 ∉ name) ∧ (evt.type = .alias → 0 ∉ evt.value)

/-- Bound events: every definition has an internal name of its own, an alias that of the last
definition of its name up to and with itself, and nothing else is changed. -/
structure BindingRule (events bound : List Event) : Prop where
  length : bound.length = events.length
  internal : ∀ j name, DefinesAt events j name →
    ∃ evt n, bound[j]? = some evt ∧ evt.anchorName = some (boundName name n)
  distinct : ∀ j name k evt evt', DefinesAt events j name → j ≠ k →
    bound[j]? = some evt → bound[k]? = some evt' → evt'.anchor ≠ evt.anchor
  aliases : ∀ i evt evt', events[i]? = some evt → bound[i]? = some evt' → evt.type = .alias →
    (∀ j, Latest events (i + 1) evt.value j →
      ∃ definition, bound[j]? = some definition ∧ definition.anchorName = some evt'.value) ∧
    ((¬∃ j, Latest events (i + 1) evt.value j) → evt'.value = evt.value)
  others : ∀ i evt evt', events[i]? = some evt → bound[i]? = some evt' →
    evt' = { evt with anchor := evt'.anchor, value := evt'.value } ∧
      ((¬∃ name, DefinesAt events i name) → evt'.anchor = evt.anchor) ∧
      (evt.type ≠ .alias → evt'.value = evt.value)

/-- A copy of an event, with its anchor or without. -/
def copyEvent (keep : Bool) (evt : Event) : Event :=
  if keep then evt else { evt with anchor := none }

/-- A copy of a bound event, and the same copy of the event that was bound. -/
def CopyOf (events bound : List Event) (copy original : Event) : Prop :=
  ∃ (i : Nat) (keep : Bool) (evt evt' : Event), bound[i]? = some evt' ∧ events[i]? = some evt ∧
    copy = copyEvent keep evt' ∧ original = copyEvent keep evt

/-! ### Names and serial numbers -/

/-- The name that an event defines. -/
def Event.definedName (evt : Event) : Option Bytes :=
  if evt.type == .docStart then none else evt.anchorName

/-- The serial number that a definition at `j` gets. -/
def serialAt (events : List Event) (j : Nat) : Nat :=
  ((events.take j).filterMap Event.definedName).length + 1

/-- The state of binding before the event at `n`. -/
def bindState (events : List Event) (n : Nat) : BindState := (bindEvents {} (events.take n)).2

section

variable {events : List Event} {evt : Event} {st : BindState} {j n : Nat} {name : Bytes}

theorem definedName_iff : evt.definedName = some name ↔
    evt.type ≠ .docStart ∧ evt.anchorName = some name := by
  rw [Event.definedName]
  by_cases isMark : evt.type = .docStart
  · rw [if_pos (beq_iff_eq.mpr isMark)]
    simp [isMark]
  · rw [if_neg (by simpa using isMark)]
    simp [isMark]

theorem definesAt_iff (there : events[j]? = some evt) :
    DefinesAt events j name ↔ evt.definedName = some name := by
  rw [definedName_iff]
  constructor
  · rintro ⟨evt', there', notMark, named⟩
    rw [there] at there'
    cases there'
    exact ⟨notMark, named⟩
  · rintro ⟨notMark, named⟩
    exact ⟨evt, there, notMark, named⟩

theorem startsDocument_iff (there : events[j]? = some evt) :
    StartsDocument events j ↔ evt.type = .docStart := by
  constructor
  · rintro ⟨evt', there', isMark⟩
    rw [there] at there'
    cases there'
    exact isMark
  · intro isMark
    exact ⟨evt, there, isMark⟩

theorem bindEvents_append (first second : List Event) :
    bindEvents st (first ++ second) =
      ((bindEvents st first).1 ++ (bindEvents (bindEvents st first).2 second).1,
        (bindEvents (bindEvents st first).2 second).2) := by
  induction first generalizing st with
  | nil => rfl
  | cons evt first ih =>
      have rest := @ih (bindEvent st evt).2
      rw [List.cons_append, bindEvents]
      dsimp only
      rw [rest]
      rfl

theorem bindState_succ (there : events[n]? = some evt) :
    bindState events (n + 1) = (bindEvent (bindState events n) evt).2 := by
  rw [bindState, List.take_add_one, there, Option.toList_some, bindEvents_append]
  rfl

theorem serialAt_succ (there : events[n]? = some evt) :
    serialAt events (n + 1) = serialAt events n + if evt.definedName.isSome then 1 else 0 := by
  rw [serialAt, List.take_add_one, there, Option.toList_some, List.filterMap_append,
    List.length_append, serialAt]
  cases named : evt.definedName with
  | none => simp [named]
  | some name => simp [named]

/-- What an event does to the state. -/
theorem bindEvent_state (st : BindState) (evt : Event) : (bindEvent st evt).2 =
    if evt.type == .docStart then { st with slots := [] }
    else match evt.definedName with
      | none => st
      | some name =>
          { slots := (name, boundName name st.names.length) :: st.slots
            names := st.names ++ [name] } := by
  rw [bindEvent, Event.definedName]
  split
  · rfl
  · dsimp only
    rw [bindAnchor]
    cases evt.anchorName <;> rfl

theorem bindState_names (within : n ≤ events.length) :
    (bindState events n).names = [] :: (events.take n).filterMap Event.definedName := by
  induction n with
  | zero => rfl
  | succ n ih =>
      have there : events[n]? = some events[n] := List.getElem?_eq_getElem within
      rw [bindState_succ there, bindEvent_state, List.take_add_one, there, Option.toList_some,
        List.filterMap_append]
      have names := ih (Nat.le_of_succ_le within)
      by_cases isMark : events[n].type = .docStart
      · have noName : events[n].definedName = none := by
          rw [Event.definedName, if_pos (beq_iff_eq.mpr isMark)]
        rw [if_pos (beq_iff_eq.mpr isMark)]
        simp [noName, names]
      · rw [if_neg (by simpa using isMark)]
        cases named : events[n].definedName with
        | none => simp [named, names]
        | some name => simp [named, names]

theorem bindState_serial (within : n ≤ events.length) :
    (bindState events n).names.length = serialAt events n := by
  rw [bindState_names within, List.length_cons, serialAt]

/-- The definitions that an alias can be bound to. -/
theorem bindState_lookup (within : n ≤ events.length) (bound : Bytes) :
    (bindState events n).slots.lookup name = some bound ↔
      ∃ j, Latest events n name j ∧ bound = boundName name (serialAt events j) := by
  induction n generalizing bound with
  | zero =>
      constructor
      · intro found
        cases found
      · rintro ⟨j, latest, _⟩
        exact absurd latest.before (Nat.not_lt_zero j)
  | succ n ih =>
      have there : events[n]? = some events[n] := List.getElem?_eq_getElem within
      have earlier := ih (Nat.le_of_succ_le within)
      have serial := bindState_serial (Nat.le_of_succ_le within)
      rw [bindState_succ there, bindEvent_state]
      -- an event that neither defines the name nor starts a document changes nothing
      have skip (notMark : events[n].type ≠ .docStart) (other : events[n].definedName ≠ some name)
          (j : Nat) : Latest events (n + 1) name j ↔ Latest events n name j := by
        constructor
        · intro latest
          refine ⟨?_, latest.defines, ?_⟩
          · refine Nat.lt_of_le_of_ne (Nat.le_of_lt_succ latest.before) ?_
            rintro rfl
            exact other ((definesAt_iff there).mp latest.defines)
          · intro k after below
            exact latest.last k after (Nat.lt_succ_of_lt below)
        · intro latest
          refine ⟨Nat.lt_succ_of_lt latest.before, latest.defines, ?_⟩
          intro k after below
          rcases Nat.lt_succ_iff_lt_or_eq.mp below with below | rfl
          · exact latest.last k after below
          · rw [definesAt_iff there, startsDocument_iff there]
            exact ⟨other, notMark⟩
      by_cases isMark : events[n].type = .docStart
      · rw [if_pos (beq_iff_eq.mpr isMark)]
        constructor
        · intro found
          cases found
        · rintro ⟨j, latest, _⟩
          exfalso
          rcases Nat.lt_succ_iff_lt_or_eq.mp latest.before with before | rfl
          · exact (latest.last n before (Nat.lt_succ_self n)).2 ⟨_, there, isMark⟩
          · exact ((definedName_iff).mp ((definesAt_iff there).mp latest.defines)).1 isMark
      · rw [if_neg (by simpa using isMark)]
        cases named : events[n].definedName with
        | none =>
            dsimp only
            rw [earlier]
            apply exists_congr
            intro j
            rw [skip isMark (by rw [named]; exact Option.some_ne_none name |>.symm)]
        | some defined =>
            dsimp only
            rw [List.lookup_cons]
            by_cases same : name = defined
            · subst same
              rw [beq_self_eq_true]
              have defines : DefinesAt events n name := (definesAt_iff there).mpr named
              have own : Latest events (n + 1) name n := by
                refine ⟨Nat.lt_succ_self n, defines, ?_⟩
                intro k after below
                exact absurd after (Nat.not_lt_of_le (Nat.le_of_lt_succ below))
              constructor
              · intro found
                cases found
                refine ⟨n, own, ?_⟩
                rw [serial]
              · rintro ⟨j, latest, rfl⟩
                rcases Nat.lt_succ_iff_lt_or_eq.mp latest.before with before | rfl
                · exact absurd defines (latest.last n before (Nat.lt_succ_self n)).1
                · rw [serial]
            · rw [beq_false_of_ne same]
              dsimp only
              rw [earlier]
              apply exists_congr
              intro j
              rw [skip isMark]
              rw [named]
              intro equal
              cases equal
              exact same rfl

theorem Latest.unique {i k : Nat} (first : Latest events i name j)
    (second : Latest events i name k) :
    j = k := by
  rcases Nat.lt_trichotomy j k with earlier | same | later
  · exact absurd second.defines (first.last k earlier second.before).1
  · exact same
  · exact absurd first.defines (second.last j later first.before).1

/-! ### The bound events -/

theorem bindEvents_getElem? (n : Nat) :
    (bindEvents st events).1[n]? =
      events[n]?.map fun evt => (bindEvent (bindEvents st (events.take n)).2 evt).1 := by
  induction events generalizing st n with
  | nil => rfl
  | cons evt events ih =>
      cases n with
      | zero => rfl
      | succ n =>
          have rest := @ih (bindEvent st evt).2 n
          rw [List.take_succ_cons]
          exact rest

theorem bindEvents_length : (bindEvents st events).1.length = events.length :=
  (bindEvents_rebinds st events).length_eq.symm

theorem bindAlias_fields (st : BindState) (evt : Event) :
    bindAlias st evt = { evt with value := (bindAlias st evt).value } := by
  rw [bindAlias]
  split
  · split <;> rfl
  · rfl

theorem bindAnchor_fields (st : BindState) (evt : Event) :
    (bindAnchor st evt).1 = { evt with anchor := (bindAnchor st evt).1.anchor } := by
  rw [bindAnchor]
  split <;> rfl

/-- The anchor of a bound event. -/
theorem bindEvent_anchor (st : BindState) (evt : Event) : (bindEvent st evt).1.anchor =
    match evt.definedName with
    | none => evt.anchor
    | some name => some (boundName name st.names.length) := by
  rw [bindEvent, Event.definedName]
  split
  · rfl
  · dsimp only
    rw [(bindAlias_anchor _ _).1, bindAnchor]
    cases evt.anchorName <;> rfl

theorem bindEvent_fields (st : BindState) (evt : Event) : (bindEvent st evt).1 =
    { evt with anchor := (bindEvent st evt).1.anchor, value := (bindEvent st evt).1.value } := by
  rw [bindEvent]
  split
  · rfl
  · dsimp only
    rw [bindAlias_fields, bindAnchor_fields]

/-- The value of a bound event. -/
theorem bindEvent_value (st : BindState) (evt : Event) : (bindEvent st evt).1.value =
    if evt.type == .alias then ((bindEvent st evt).2.slots.lookup evt.value).getD evt.value
    else evt.value := by
  rw [bindEvent]
  by_cases isMark : evt.type = .docStart
  · rw [if_pos (beq_iff_eq.mpr isMark), isMark]
    rfl
  · rw [if_neg (by simpa using isMark)]
    dsimp only
    have same : (bindAnchor st evt).1.type = evt.type ∧ (bindAnchor st evt).1.value =
        evt.value := by
      rw [bindAnchor_fields]
      exact ⟨rfl, rfl⟩
    rw [bindAlias, same.1, same.2]
    split
    · cases (bindAnchor st evt).2.slots.lookup evt.value with
      | none => exact same.2
      | some bound => rfl
    · exact same.2

theorem anchorName_of_bound {evt : Event} {n : Nat} (bound : evt.anchor = some (boundName name n)) :
    evt.anchorName = some (boundName name n) := by
  rw [Event.anchorName, bound]
  cases name <;> rfl

theorem boundName_nul (name : Bytes) (n : Nat) : 0 ∈ boundName name n :=
  List.mem_append_right name List.mem_cons_self

theorem serialAt_lt {k : Nat} (earlier : j < k) (defines : DefinesAt events j name) :
    serialAt events j < serialAt events k := by
  obtain ⟨evt, there, _⟩ := id defines
  induction earlier with
  | refl =>
      rw [serialAt_succ there, (definesAt_iff there).mp defines]
      exact Nat.lt_succ_self _
  | @step k later ih =>
      refine Nat.lt_of_lt_of_le ih ?_
      rw [serialAt, serialAt]
      apply Nat.succ_le_succ
      exact ((List.take_prefix_take_left (Nat.le_succ k)).filterMap _).length_le

/-- Binding follows the rule. -/
theorem bindEvents_rule (plain : PlainNames events) :
    BindingRule events (bindEvents {} events).1 := by
  have at_index {i : Nat} {evt evt' : Event} (there : events[i]? = some evt)
      (there' : (bindEvents {} events).1[i]? = some evt') :
      i ≤ events.length ∧ evt' = (bindEvent (bindState events i) evt).1 := by
    rw [bindEvents_getElem?, there] at there'
    cases there'
    exact ⟨Nat.le_of_lt (List.getElem?_eq_some_iff.mp there).1, rfl⟩
  have bound_at {i : Nat} {evt : Event} (there : events[i]? = some evt) :
      (bindEvents {} events).1[i]? = some (bindEvent (bindState events i) evt).1 := by
    rw [bindEvents_getElem?, there]
    rfl
  have anchor_at {i : Nat} {evt : Event} {name : Bytes} (there : events[i]? = some evt)
      (defines : DefinesAt events i name) :
      (bindEvent (bindState events i) evt).1.anchor =
        some (boundName name (serialAt events i)) := by
    have within := Nat.le_of_lt (List.getElem?_eq_some_iff.mp there).1
    rw [bindEvent_anchor, (definesAt_iff there).mp defines, bindState_serial within]
  constructor
  · exact bindEvents_length
  · intro j name defines
    obtain ⟨evt, there, _⟩ := id defines
    exact ⟨_, serialAt events j, bound_at there, anchorName_of_bound (anchor_at there defines)⟩
  · intro j name k evt evt' defines differ at_j at_k same
    obtain ⟨source, there, _⟩ := id defines
    obtain ⟨_, rfl⟩ := at_index there at_j
    rw [anchor_at there defines] at same
    rw [bindEvents_getElem?] at at_k
    obtain ⟨source', there', rfl⟩ := Option.map_eq_some_iff.mp at_k
    have isBound := bindEvent_anchor (bindState events k) source'
    rw [bindState] at isBound
    rw [isBound] at same
    cases named : source'.definedName with
    | none =>
        rw [named] at same
        have noNul := (plain source' (List.mem_of_getElem? there')).1
        exact noNul _ same (boundName_nul name _)
    | some other =>
        rw [named] at same
        have serials := boundName_serial (Option.some_inj.mp same)
        have within := Nat.le_of_lt (List.getElem?_eq_some_iff.mp there').1
        have serial := bindState_serial within
        rw [bindState] at serial
        rw [serial] at serials
        have defines' : DefinesAt events k other := (definesAt_iff there').mpr named
        rcases Nat.lt_or_gt_of_ne differ with earlier | later
        · exact Nat.ne_of_gt (serialAt_lt earlier defines) serials
        · exact Nat.ne_of_lt (serialAt_lt later defines') serials
  · intro i evt evt' there there' isAlias
    obtain ⟨within, rfl⟩ := at_index there there'
    have below : i + 1 ≤ events.length := (List.getElem?_eq_some_iff.mp there).1
    have value := bindEvent_value (bindState events i) evt
    rw [if_pos (beq_iff_eq.mpr isAlias), ← bindState_succ there] at value
    constructor
    · intro j latest
      obtain ⟨source, at_j, _⟩ := id latest.defines
      refine ⟨_, bound_at at_j, ?_⟩
      rw [anchorName_of_bound (anchor_at at_j latest.defines), value,
        (bindState_lookup below _).mpr ⟨j, latest, rfl⟩]
      rfl
    · intro unbound
      have missing : (bindState events (i + 1)).slots.lookup evt.value = none := by
        by_contra found
        obtain ⟨bound, isBound⟩ := Option.ne_none_iff_exists'.mp found
        obtain ⟨j, latest, _⟩ := (bindState_lookup below bound).mp isBound
        exact unbound ⟨j, latest⟩
      rw [value, missing]
      rfl
  · intro i evt evt' there there'
    obtain ⟨within, rfl⟩ := at_index there there'
    refine ⟨bindEvent_fields _ _, ?_, ?_⟩
    · intro none
      rw [bindEvent_anchor]
      cases named : evt.definedName with
      | none => rfl
      | some name => exact absurd ⟨name, (definesAt_iff there).mpr named⟩ none
    · intro notAlias
      rw [bindEvent_value, if_neg (by simpa using notAlias)]

/-! ### The original names -/

theorem isDigit_ofNat {c : Char} (digit : c.isDigit = true) :
    isDigit (UInt8.ofNat c.toNat) = true ∧ (UInt8.ofNat c.toNat).toNat = c.toNat := by
  simp only [Char.isDigit, Bool.and_eq_true, decide_eq_true_eq] at digit
  have low : 48 ≤ c.toNat := UInt32.le_iff_toNat_le.mp digit.1
  have high : c.toNat ≤ 57 := UInt32.le_iff_toNat_le.mp digit.2
  have same : (UInt8.ofNat c.toNat).toNat = c.toNat :=
    UInt8.toNat_ofNat_of_lt' (Nat.lt_of_le_of_lt high (by decide))
  refine ⟨?_, same⟩
  rw [isDigit, Bool.and_eq_true, decide_eq_true_iff, decide_eq_true_iff, UInt8.le_iff_toNat_le,
    UInt8.le_iff_toNat_le, same]
  exact ⟨low, high⟩

/-- A serial number is read back from its digits. -/
theorem decimalValue_decimal (n : Nat) : decimalValue (decimal n) = n := by
  have digits : ∀ c ∈ Nat.toDigits 10 n, c.isDigit = true :=
    fun c member => Nat.isDigit_of_mem_toDigits (by decide) (Nat.le_refl _) member
  have run : (decimal n).takeWhile isDigit = decimal n := by
    rw [List.takeWhile_eq_self_iff]
    intro c member
    obtain ⟨digit, among, rfl⟩ := List.mem_map.mp member
    exact (isDigit_ofNat (digits digit among)).1
  have folded (cs : List Char) (all : ∀ c ∈ cs, c.isDigit = true) (init : Nat) :
      (cs.map fun c => UInt8.ofNat c.toNat).foldl (fun n c => n * 10 + (c.toNat - 48)) init =
        Nat.ofDigitChars 10 cs init := by
    induction cs generalizing init with
    | nil => rfl
    | cons c cs ih =>
        rw [List.map_cons, List.foldl_cons, Nat.ofDigitChars_cons,
          ih fun d member => all d (List.mem_cons_of_mem _ member),
          (isDigit_ofNat (all c List.mem_cons_self)).2, Nat.mul_comm]
        rfl
  rw [decimalValue, run, decimal, folded _ digits, Nat.ofDigitChars_ten_toDigits]

theorem unbindName_plain {names : List Bytes} (plain : 0 ∉ name) : unbindName names name =
    name := by
  have all : name.dropWhile (· != 0) = [] := by
    rw [List.dropWhile_eq_nil_iff]
    intro c member
    rw [bne_iff_ne]
    rintro rfl
    exact plain member
  rw [unbindName, all]

theorem unbindName_bound {names : List Bytes} (plain : 0 ∉ name) :
    unbindName names (boundName name n) = names.getD n [] := by
  have passed : (boundName name n).dropWhile (· != 0) = 0 :: decimal n := by
    rw [boundName, List.dropWhile_append_of_pos, List.dropWhile_cons]
    · rfl
    · intro c member
      rw [bne_iff_ne]
      rintro rfl
      exact plain member
  rw [unbindName, passed]
  dsimp only
  rw [decimalValue_decimal]

/-- The original name under a serial number. -/
theorem names_at (there : events[j]? = some evt) (defines : evt.definedName = some name) :
    (bindEvents {} events).2.names.getD (serialAt events j) [] = name := by
  have all := @bindState_names events events.length (Nat.le_refl _)
  rw [bindState, List.take_length] at all
  obtain ⟨inside, isEvent⟩ := List.getElem?_eq_some_iff.mp there
  have parts : events = events.take j ++ evt :: events.drop (j + 1) := by
    rw [← isEvent, ← List.drop_eq_getElem_cons inside, List.take_append_drop]
  rw [all, serialAt, List.getD_cons_succ]
  generalize events.take j = before at parts ⊢
  rw [parts, List.filterMap_append, List.filterMap_cons, defines]
  dsimp only
  rw [List.getD_eq_getElem?_getD, List.getElem?_append_right (Nat.le_refl _), Nat.sub_self]
  rfl

/-- A copy of a bound event gets its names back. -/
theorem unbindEvent_bound (plain : PlainNames events) (there : events[n]? = some evt)
    (keep : Bool) :
    unbindEvent (bindEvents {} events).2.names
      (copyEvent keep (bindEvent (bindState events n) evt).1) = copyEvent keep evt := by
  have inside := (List.getElem?_eq_some_iff.mp there).1
  have isPlain := plain evt (List.mem_of_getElem? there)
  have anchor : ((bindEvent (bindState events n) evt).1.anchor).map
      (unbindName (bindEvents {} events).2.names) = evt.anchor := by
    rw [bindEvent_anchor]
    cases named : evt.definedName with
    | none =>
        dsimp only
        cases isAnchor : evt.anchor with
        | none => rfl
        | some name => rw [Option.map_some, unbindName_plain (isPlain.1 name isAnchor)]
    | some name =>
        have isAnchor : evt.anchor = some name := by
          have named' := (definedName_iff.mp named).2
          rw [Event.anchorName] at named'
          split at named'
          · cases named'
            assumption
          · cases named'
        dsimp only
        rw [Option.map_some, unbindName_bound (isPlain.1 name isAnchor),
          bindState_serial (Nat.le_of_lt inside), names_at there named, isAnchor]
  have value : (if evt.type == .alias then
      unbindName (bindEvents {} events).2.names (bindEvent (bindState events n) evt).1.value
      else (bindEvent (bindState events n) evt).1.value) = evt.value := by
    rw [bindEvent_value]
    by_cases isAlias : evt.type = .alias
    · rw [if_pos (beq_iff_eq.mpr isAlias), if_pos (beq_iff_eq.mpr isAlias), ← bindState_succ there]
      cases found : (bindState events (n + 1)).slots.lookup evt.value with
      | none => exact unbindName_plain (isPlain.2 isAlias)
      | some bound =>
          obtain ⟨j, latest, rfl⟩ := (bindState_lookup inside bound).mp found
          obtain ⟨source, at_j, _⟩ := id latest.defines
          rw [Option.getD_some, unbindName_bound (isPlain.2 isAlias),
            names_at at_j ((definesAt_iff at_j).mp latest.defines)]
    · rw [if_neg (by simpa using isAlias), if_neg (by simpa using isAlias)]
  have type : (bindEvent (bindState events n) evt).1.type = evt.type := by
    rw [bindEvent_fields]
  rw [unbindEvent, copyEvent, copyEvent]
  cases keep with
  | true =>
      rw [if_pos rfl, if_pos rfl, anchor, type, value, bindEvent_fields]
  | false =>
      rw [if_neg Bool.false_ne_true, if_neg Bool.false_ne_true]
      dsimp only
      rw [type, value, bindEvent_fields]
      rfl

theorem bindEvents_bare (bare : ∀ evt ∈ events, evt.anchorName = none) (empty : st.slots = []) :
    bindEvents st events = (events, st) := by
  induction events with
  | nil => rfl
  | cons evt rest ih =>
      have step : bindEvent st evt = (evt, st) := by
        have same : bindAnchor st evt = (evt, st) := by
          rw [bindAnchor, bare evt List.mem_cons_self]
        rw [bindEvent]
        split
        · rw [← empty]
        · rw [same]
          dsimp only
          rw [bindAlias, empty]
          split <;> rfl
      rw [bindEvents, step]
      dsimp only
      rw [ih fun evt' member => bare evt' (List.mem_cons_of_mem _ member)]

theorem Parser.bindAnchors_events (p : Parser) :
    p.bindAnchors.events = (bindEvents {} p.events).1 := by
  rw [Parser.bindAnchors]
  split
  · rename_i bare
    rw [bindEvents_bare _ rfl]
    intro evt member
    rw [← Option.isNone_iff_eq_none]
    exact List.all_eq_true.mp bare evt member
  · rfl

theorem Parser.unbindAnchors_events (p : Parser) : p.unbindAnchors.events =
    match p.boundNames with
    | none => p.events
    | some names => p.events.map (unbindEvent names) := by
  rw [Parser.unbindAnchors]
  cases p.boundNames <;> rfl

theorem unbindEvent_plain {names : List Bytes} (anchor : ∀ name ∈ evt.anchor, 0 ∉ name)
    (value : evt.type = .alias → 0 ∉ evt.value) : unbindEvent names evt = evt := by
  have sameAnchor : evt.anchor.map (unbindName names) = evt.anchor := by
    cases isAnchor : evt.anchor with
    | none => rfl
    | some name => rw [Option.map_some, unbindName_plain (anchor name isAnchor)]
  rw [unbindEvent, sameAnchor]
  split
  · rename_i isAlias
    rw [unbindName_plain (value (beq_iff_eq.mp isAlias))]
  · rfl

/-- The copies of the bound events get the original names back. -/
theorem Parser.unbindAnchors_copies {p : Parser} (plain : PlainNames p.events)
    {copies originals : List Event}
    (copied : List.Forall₂ (CopyOf p.events p.bindAnchors.events) copies originals) :
    ({ p.bindAnchors with events := copies } : Parser).unbindAnchors.events = originals := by
  rw [Parser.unbindAnchors_events]
  dsimp only
  by_cases bare : p.events.all (·.anchorName.isNone) = true
  · -- nothing was bound, so a copy has its original names
    have unchanged : p.bindAnchors = p := by rw [Parser.bindAnchors, if_pos bare]
    rw [unchanged] at copied ⊢
    have same : copies = originals ∧ ∀ evt ∈ copies,
        (∀ name ∈ evt.anchor, 0 ∉ name) ∧ (evt.type = .alias → 0 ∉ evt.value) := by
      induction copied with
      | nil => exact ⟨rfl, by simp⟩
      | @cons copy original copies originals first _ ih =>
          obtain ⟨i, keep, evt, bound, at_i, at_i', rfl, rfl⟩ := first
          rw [at_i] at at_i'
          cases at_i'
          obtain ⟨rfl, others⟩ := ih
          refine ⟨rfl, ?_⟩
          intro evt' member
          rcases List.mem_cons.mp member with rfl | member
          · have isPlain := plain evt (List.mem_of_getElem? at_i)
            cases keep with
            | true => exact isPlain
            | false =>
                refine ⟨?_, isPlain.2⟩
                intro name isName
                cases isName
          · exact others evt' member
    cases p.boundNames with
    | none => exact same.1
    | some names =>
        dsimp only
        rw [← same.1]
        conv_rhs => rw [← List.map_id copies]
        apply List.map_congr_left
        intro evt member
        exact unbindEvent_plain (same.2 evt member).1 (same.2 evt member).2
  · have names : p.bindAnchors.boundNames = some (bindEvents {} p.events).2.names := by
      rw [Parser.bindAnchors, if_neg bare]
    rw [names]
    dsimp only
    induction copied with
    | nil => rfl
    | @cons copy original copies originals first _ ih =>
        obtain ⟨i, keep, evt, bound, at_i, at_i', rfl, rfl⟩ := first
        rw [Parser.bindAnchors_events, bindEvents_getElem?, at_i'] at at_i
        cases at_i
        have restored := unbindEvent_bound plain at_i' keep
        rw [bindState] at restored
        rw [List.map_cons, ih, restored]

end

/-- Binding anchors with the table follows the rule, and is undone on every list of copies. -/
theorem Parser.anchors_bound (p : Parser) (plain : PlainNames p.events) :
    ∃ p', p.bindAnchorsOn = some p' ∧ BindingRule p.events p'.events ∧
      ∀ copies originals, List.Forall₂ (CopyOf p.events p'.events) copies originals →
        ({ p' with events := copies } : Parser).unbindAnchors.events = originals := by
  refine ⟨p.bindAnchors, p.bindAnchorsOn_eq, ?_, ?_⟩
  · rw [Parser.bindAnchors_events]
    exact bindEvents_rule plain
  · intro copies originals copied
    exact Parser.unbindAnchors_copies plain copied

/-- `&a [*a, &a x, *a]`, then a document with `*a`. -/
def reusedAnchor : List Event :=
  [{ type := .docStart }, { type := .sequenceStart, anchor := some (ascii "a") },
    { type := .alias, value := ascii "a" },
    { type := .scalar, anchor := some (ascii "a"), value := ascii "x" },
    { type := .alias, value := ascii "a" }, { type := .sequenceEnd }, { type := .docEnd },
    { type := .docStart }, { type := .alias, value := ascii "a" }, { type := .docEnd }]

theorem plainNames_of_all {events : List Event}
    (all : (events.all fun evt => (evt.anchor.all fun name => !name.contains 0) &&
      (evt.type != .alias || !evt.value.contains 0)) = true) : PlainNames events := by
  intro evt member
  have checked := List.all_eq_true.mp all evt member
  rw [Bool.and_eq_true, Bool.or_eq_true] at checked
  constructor
  · intro name isName
    rw [isName, Option.all_some] at checked
    simpa using checked.1
  · intro isAlias
    rw [isAlias] at checked
    simpa using checked.2

theorem Parser.anchors_bound_reusedAnchor :
    ∃ p', ({ scanner := Scanner.new [], input := [], events := reusedAnchor } :
        Parser).bindAnchorsOn = some p' ∧ BindingRule reusedAnchor p'.events := by
  have plain : PlainNames reusedAnchor := plainNames_of_all (by decide)
  obtain ⟨p', bound, rule, _⟩ := Parser.anchors_bound
    { scanner := Scanner.new [], input := [], events := reusedAnchor } plain
  exact ⟨p', bound, rule⟩

/-- An anchored document start, and an alias that has the anchor it names. -/
def anchoredAlias : List Event :=
  [{ type := .docStart, anchor := some (ascii "a") },
    { type := .alias, value := ascii "a", anchor := some (ascii "a") }]

/-- The document start keeps its name, and the alias is bound though no event before it in
its document has the name. -/
theorem Parser.anchors_bound_anchoredAlias :
    PlainNames anchoredAlias ∧ (¬∃ j < 1, DefinesAt anchoredAlias j (ascii "a")) ∧
      ∃ p', ({ scanner := Scanner.new [], input := [], events := anchoredAlias } :
          Parser).bindAnchorsOn = some p' ∧
        (p'.events.map Event.anchor).head? = some (some (ascii "a")) ∧
        (p'.events.map Event.value).getLast? = some (boundName (ascii "a") 1) := by
  refine ⟨plainNames_of_all (by decide), ?_, ?_⟩
  · rintro ⟨j, before, evt, there, notMark, _⟩
    obtain rfl : j = 0 := by omega
    cases there
    exact notMark rfl
  · refine ⟨_, Parser.bindAnchorsOn_eq _, ?_⟩
    rw [Parser.bindAnchors_events]
    decide

end Oyl
