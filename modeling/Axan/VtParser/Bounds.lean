import Axan.VtParser.Chunks

/-!
# What the parser may rely on

The vectors of the parser are indexed without a check at many places, and the bounds of the
subparameters are kept in bytes. In every state that is reached all of this is in range, and the
engine is only asked to do what is well formed.

* `Tiles` — the ranges of the subparameters lie one behind the other.
* `Collected`, `Invariant` — what holds of the parameters, and of each state.
* `Action.WellFormed` — what the engine is asked to do.
* `processString_keeps` — **the invariant is kept by every output, and every request is well
  formed**: whatever well-formed requests keep of the engine's state is kept.
-/

namespace Axan.VtParser

open Axan.Base StateMachine

/-! ### Vectors -/

/-- The last one is changed. -/
theorem modifyBack_append_singleton {α : Type} (f : α → α) (l : List α) (a : α) :
    modifyBack f (l ++ [a]) = l ++ [f a] := by
  have hlast (l : List α) : (l ++ [a]).modify l.length f = l ++ [f a] := by
    induction l with
    | nil => rfl
    | cons b l ih => exact congrArg (b :: ·) ih
  rw [modifyBack, List.length_append, List.length_singleton, Nat.add_sub_cancel]
  exact hlast l

/-- There are as many as before. -/
theorem length_modifyBack {α : Type} (f : α → α) (l : List α) :
    (modifyBack f l).length = l.length := List.length_modify _ _ _

/-- The parameters that are not omitted are at most 65535. -/
def InBounds (ps : List VTParameter) : Prop := ∀ v, some v ∈ ps → v ≤ maxParameterValue

/-- No parameter is out of bounds. -/
theorem inBounds_nil : InBounds [] := fun _ h => absurd h List.not_mem_nil

/-- Nor is one that is left out. -/
theorem InBounds.append_none {ps : List VTParameter} (h : InBounds ps) : InBounds (ps ++ [none]) := by
  intro v hv
  rcases List.mem_append.mp hv with hv | hv
  · exact h v hv
  · cases List.mem_singleton.mp hv

/-- A number stays below the limit. -/
theorem accumulateTo_le (wch : WChar) (value : ℕ) : accumulateTo wch value ≤ maxParameterValue :=
  Nat.min_le_right _ _

/-- A digit is added to the last parameter. -/
theorem InBounds.accumulate {ps : List VTParameter} (h : InBounds ps) (wch : WChar) :
    InBounds (modifyBack (fun p => some (accumulateTo wch (p.getD 0))) ps) := by
  rcases List.eq_nil_or_concat ps with rfl | ⟨init, p, rfl⟩
  · exact h
  · rw [List.concat_eq_append, modifyBack_append_singleton]
    rw [List.concat_eq_append] at h
    intro v hv
    rcases List.mem_append.mp hv with hv | hv
    · exact h v (List.mem_append_left _ hv)
    · rw [List.mem_singleton] at hv
      cases hv
      exact accumulateTo_le wch _

/-- The ranges lie one behind the other, from one index to another, and none has more than six
subparameters. -/
def Tiles : ℕ → List (ℕ × ℕ) → ℕ → Prop
  | k, [], n => k = n
  | k, r :: rest, n => r.1 = k ∧ k ≤ r.2 ∧ r.2 ≤ k + maxSubParameterCount ∧ Tiles r.2 rest n

/-- The last range ends the tiling. -/
theorem tiles_append_singleton {k n : ℕ} {rs : List (ℕ × ℕ)} {r : ℕ × ℕ} :
    Tiles k (rs ++ [r]) n ↔
      Tiles k rs r.1 ∧ r.1 ≤ r.2 ∧ r.2 ≤ r.1 + maxSubParameterCount ∧ r.2 = n := by
  induction rs generalizing k with
  | nil =>
      constructor
      · rintro ⟨hk, hle, hmax, hn⟩
        exact ⟨hk.symm, hk ▸ hle, hk ▸ hmax, hn⟩
      · rintro ⟨hk, hle, hmax, hn⟩
        have hk : k = r.1 := hk
        exact ⟨hk.symm, hk ▸ hle, hk ▸ hmax, hn⟩
  | cons r' rs ih =>
      rw [List.cons_append, Tiles, Tiles, ih]
      tauto

/-- Each range has a limit, so all have. -/
theorem Tiles.le {k n : ℕ} {rs : List (ℕ × ℕ)} (h : Tiles k rs n) :
    k ≤ n ∧ n ≤ k + maxSubParameterCount * rs.length := by
  induction rs generalizing k with
  | nil => exact ⟨Nat.le_of_eq h, Nat.le_of_eq h.symm⟩
  | cons r rs ih =>
      obtain ⟨-, hle, hmax, hrest⟩ := h
      obtain ⟨hlow, hhigh⟩ := ih hrest
      rw [List.length_cons, Nat.mul_succ]
      exact ⟨hle.trans hlow, by omega⟩

/-! ### The parameters -/

/-- What is collected of the parameters of a sequence. -/
structure Collected (m : StateMachine) : Prop where
  parameters_le : m.parameters.length ≤ maxParameterCount
  parameters_inBounds : InBounds m.parameters
  subParameters_inBounds : InBounds m.subParameters
  length_ranges : m.subParameterRanges.length = m.parameters.length
  tiles : Tiles 0 m.subParameterRanges m.subParameters.length
  /-- The counter belongs to the last range. -/
  counter_none : m.subParameterRanges = [] → m.subParameterCounter = 0
  counter : ∀ rs r, m.subParameterRanges = rs ++ [r] → r.2 = r.1 + m.subParameterCounter
  /-- There is a subparameter when there have been too many. -/
  overflowed : m.subParameterLimitOverflowed = true → m.subParameters ≠ []

/-- After a clear nothing is collected. -/
theorem collected_enterClear (m : StateMachine) (state : VTStates) :
    Collected (m.enterClear state) where
  parameters_le := Nat.zero_le _
  parameters_inBounds := inBounds_nil
  subParameters_inBounds := inBounds_nil
  length_ranges := rfl
  tiles := rfl
  counter_none := fun _ => rfl
  counter := fun _ _ h => absurd h.symm (List.append_ne_nil_of_right_ne_nil _ (List.cons_ne_nil _ _))
  overflowed := fun h => absurd h Bool.false_ne_true

section Collected

variable {m : StateMachine} (h : Collected m)

include h

/-- Entering a state and collecting an intermediate leave the parameters alone. -/
theorem Collected.enter (state : VTStates) : Collected (m.enter state) := by
  cases h
  constructor <;> assumption

/-- An intermediate keeps the bounds. -/
theorem Collected.actionCollect (wch : WChar) : Collected (m.actionCollect wch) := by
  cases h
  constructor <;> assumption

/-- There are at most 192 subparameters, so that every index into them fits in a byte. -/
theorem Collected.length_subParameters_lt : m.subParameters.length < 256 := by
  have hle := h.tiles.le.2
  have hparams := h.parameters_le
  rw [h.length_ranges] at hle
  unfold maxParameterCount at hparams
  unfold maxSubParameterCount at hle
  omega

/-- The next parameter: there is room, and the counter starts again. -/
theorem Collected.pushParameter (hroom : m.parameters.length < maxParameterCount) :
    Collected { m.pushParameter with subParameterCounter := 0, subParameterLimitOverflowed := false } where
  parameters_le := by
    rw [StateMachine.pushParameter, List.length_append]
    exact hroom
  parameters_inBounds := h.parameters_inBounds.append_none
  subParameters_inBounds := h.subParameters_inBounds
  length_ranges := by simp [StateMachine.pushParameter, h.length_ranges]
  tiles := tiles_append_singleton.mpr ⟨h.tiles, le_rfl, Nat.le_add_right _ _, rfl⟩
  counter_none := fun _ => rfl
  counter := by
    intro rs r heq
    obtain ⟨-, heq⟩ := List.append_inj' heq rfl
    cases List.cons.inj heq |>.1
    rfl
  overflowed := fun hover => absurd hover Bool.false_ne_true

/-- So does a first parameter. -/
theorem Collected.ensureParameter :
    Collected m.ensureParameter ∧ m.ensureParameter.parameters ≠ [] := by
  unfold StateMachine.ensureParameter
  split_ifs with hempty
  · have hnil := List.isEmpty_iff.mp hempty
    have hranges : m.subParameterRanges = [] := by
      rw [← List.length_eq_zero_iff, h.length_ranges, hnil, List.length_nil]
    have hsubs : m.subParameters = [] := by
      have htiles := h.tiles
      rw [hranges] at htiles
      exact List.length_eq_zero_iff.mp htiles.symm
    have hover : m.subParameterLimitOverflowed = false :=
      Bool.eq_false_of_not_eq_true fun hover => h.overflowed hover hsubs
    have hpush := h.pushParameter (by rw [hnil]; decide)
    have heq : { m.pushParameter with
        subParameterCounter := 0, subParameterLimitOverflowed := false } = m.pushParameter := by
      rw [← h.counter_none hranges, ← hover]
      rfl
    rw [heq] at hpush
    exact ⟨hpush, List.append_ne_nil_of_right_ne_nil _ (List.cons_ne_nil _ _)⟩
  · exact ⟨h, fun hnil => hempty (List.isEmpty_iff.mpr hnil)⟩

/-- So does a digit or a semicolon. -/
theorem Collected.actionParam (wch : WChar) : Collected (m.actionParam wch) := by
  have hparam := h.ensureParameter.1
  unfold StateMachine.actionParam
  dsimp only
  generalize m.ensureParameter = m' at hparam
  split_ifs with hover hdelimiter hfull
  · exact h
  · exact { hparam with }
  · exact hparam.pushParameter (not_le.mp hfull)
  · exact { hparam with
      parameters_le := (length_modifyBack _ _).trans_le hparam.parameters_le
      parameters_inBounds := hparam.parameters_inBounds.accumulate wch
      length_ranges := hparam.length_ranges.trans (length_modifyBack _ _).symm }

/-- A subparameter is added to the last range. -/
theorem Collected.pushSubParameter (hne : m.parameters ≠ [])
    (hroom : m.subParameterCounter < maxSubParameterCount) :
    Collected { m with
      subParameters := m.subParameters ++ [none]
      subParameterRanges := modifyBack (fun r => (r.1, r.2 + 1)) m.subParameterRanges
      subParameterCounter := m.subParameterCounter + 1 } := by
  have hranges : m.subParameterRanges ≠ [] := by
    rwa [← List.length_pos_iff, h.length_ranges, List.length_pos_iff]
  obtain ⟨rs, r, hsplit⟩ := List.eq_nil_or_concat m.subParameterRanges |>.resolve_left hranges
  rw [List.concat_eq_append] at hsplit
  have hmodify : modifyBack (fun r : ℕ × ℕ => (r.1, r.2 + 1)) m.subParameterRanges =
      rs ++ [(r.1, r.2 + 1)] := by rw [hsplit, modifyBack_append_singleton]
  have htiles := h.tiles
  rw [hsplit] at htiles
  obtain ⟨hinit, hle, hmax, hend⟩ := tiles_append_singleton.mp htiles
  have hcounter := h.counter rs r hsplit
  exact { h with
    subParameters_inBounds := h.subParameters_inBounds.append_none
    length_ranges := (length_modifyBack _ _).trans h.length_ranges
    tiles := by
      dsimp only
      rw [hmodify, List.length_append, List.length_singleton, ← hend]
      exact tiles_append_singleton.mpr ⟨hinit, Nat.le_succ_of_le hle, by dsimp only; omega, rfl⟩
    counter_none := fun hnil => by
      dsimp only at hnil
      rw [hmodify] at hnil
      exact absurd hnil (List.append_ne_nil_of_right_ne_nil _ (List.cons_ne_nil _ _))
    counter := fun rs' r' heq => by
      dsimp only at heq
      rw [hmodify] at heq
      obtain ⟨-, heq⟩ := List.append_inj' heq rfl
      cases (List.cons.inj heq).1
      dsimp only
      omega
    overflowed := fun _ => List.append_ne_nil_of_right_ne_nil _ (List.cons_ne_nil _ _) }

/-- Behind this there is a subparameter, if there was one or the character begins one. -/
theorem Collected.actionSubParam {wch : WChar}
    (hwch : isSubParameterDelimiter wch = true ∨ m.subParameters ≠ []) :
    Collected (m.actionSubParam wch) ∧ (m.actionSubParam wch).subParameters ≠ [] := by
  obtain ⟨hparam, hne⟩ := h.ensureParameter
  have hsubs : m.ensureParameter.subParameters = m.subParameters := by
    unfold StateMachine.ensureParameter
    split_ifs <;> rfl
  unfold StateMachine.actionSubParam
  dsimp only
  generalize m.ensureParameter = m' at hparam hne hsubs
  split_ifs with hover hdelimiter hfull
  · exact ⟨h, h.overflowed hover⟩
  · -- six of them belong to the last range already
    have hsome : m'.subParameters ≠ [] := by
      intro hnil
      have hranges : m'.subParameterRanges ≠ [] := by
        rwa [← List.length_pos_iff, hparam.length_ranges, List.length_pos_iff]
      obtain ⟨rs, r, hsplit⟩ := List.eq_nil_or_concat m'.subParameterRanges |>.resolve_left hranges
      rw [List.concat_eq_append] at hsplit
      have htiles := hparam.tiles
      rw [hsplit, hnil] at htiles
      have hend := (tiles_append_singleton.mp htiles).2.2.2
      have hcounter := hparam.counter rs r hsplit
      rw [hend, List.length_nil] at hcounter
      unfold maxSubParameterCount at hfull
      omega
    exact ⟨{ hparam with overflowed := fun _ => hsome }, hsome⟩
  · exact ⟨hparam.pushSubParameter hne (not_le.mp hfull),
      List.append_ne_nil_of_right_ne_nil _ (List.cons_ne_nil _ _)⟩
  · have hsome : m'.subParameters ≠ [] := hsubs ▸ hwch.resolve_left hdelimiter
    have hsome' : modifyBack (fun p => some (accumulateTo wch (p.getD 0))) m'.subParameters ≠ [] := by
      rwa [← List.length_pos_iff, length_modifyBack, List.length_pos_iff]
    exact ⟨{ hparam with
      subParameters_inBounds := hparam.subParameters_inBounds.accumulate wch
      tiles := by
        dsimp only
        rw [length_modifyBack]
        exact hparam.tiles
      overflowed := fun _ => hsome' }, hsome'⟩

end Collected

/-! ### The invariant -/

/-- No control gets into the string of an OSC sequence. -/
def OscText (s : WString) : Prop := ∀ c ∈ s, 0x20 ≤ c ∧ isC1ControlCharacter c = false

/-- What holds in every state. The identifier has room for a final character. -/
structure Common (m : StateMachine) : Prop where
  idShift_dvd : 8 ∣ m.identifier.idShift
  idShift_le : m.identifier.idShift ≤ 48
  idAccumulator_lt : m.identifier.idAccumulator < 2 ^ m.identifier.idShift
  oscString : OscText m.oscString
  oscParameter_le : m.oscParameter ≤ maxParameterValue

/-- What holds in one state. The states of SS3 belong to the other engine. -/
def InState : VTStates → StateMachine → Prop
  | .csiEntry, m => Collected m
  | .csiIntermediate, m => Collected m
  | .csiParam, m => Collected m
  | .csiSubParam, m => Collected m ∧ m.subParameters ≠ []
  | .dcsEntry, m => Collected m
  | .dcsIntermediate, m => Collected m
  | .dcsParam, m => Collected m
  | .dcsPassThrough, m => m.dcsStringHandler = true
  | .escape, m => m.parameters = []
  | .escapeIntermediate, m => m.parameters = []
  | .vt52Param, m => m.parameters.length ≤ 1 ∧ InBounds m.parameters
  | .ss3Entry, _ => False
  | .ss3Param, _ => False
  | _, _ => True

/-- An identifier of a sequence fits in 64 bits. -/
def maxId : ℕ := 2 ^ 64

/-- What the engine is asked to do is in range: a run of plain characters is not empty, single
characters are controls, and parameters come with the bounds of their subparameters, which are
kept in bytes. -/
def Action.WellFormed : Action → Prop
  | .execute wch =>
      isC0Code wch = true ∨ wch = asciiCAN ∨ wch = asciiSUB ∨ wch = asciiDEL
  | .print _ => False
  | .printString s => s ≠ [] ∧ ∀ c ∈ s, isActionableFromGround c = false
  | .escDispatch id => id < maxId
  | .vt52EscDispatch id ps => id < maxId ∧ (ps = [] ∨ ps.length = 2) ∧ InBounds ps
  | .csiDispatch id ps subs ranges =>
      id < maxId ∧ ps.length ≤ maxParameterCount ∧ InBounds ps ∧ InBounds subs ∧
        ranges.length = ps.length ∧ Tiles 0 ranges subs.length ∧ subs.length < 256
  | .oscDispatch parameter s => parameter ≤ maxParameterValue ∧ OscText s
  | .ss3Dispatch _ _ => False

variable {σ : Type}

/-- Parser and engine together. -/
def Reached (I P : σ → Prop) (r : Run σ) : Prop :=
  Common r.1 ∧ InState r.1.state r.1 ∧ if r.1.state = .dcsPassThrough then P r.2 else I r.2

/-- What the parser relies on: the engine keeps `I` when it does what is well formed, and `P` while
it takes the data of a DCS sequence, from a handler given out until the handler wants no more or
ESC has told it the end. A macro leaves the parser in a good state. -/
structure Engine.Keeps (e : Engine σ) (I P : σ → Prop) : Prop where
  act : ∀ {a x}, a.WellFormed → I x → I (e.act a x)
  dcsDispatch : ∀ {id ps x}, id < maxId → ps.length ≤ maxParameterCount → InBounds ps → I x →
    if (e.dcsDispatch id ps x).2 then P (e.dcsDispatch id ps x).1 else I (e.dcsDispatch id ps x).1
  dcsString : ∀ {wch x}, isC0Code wch = true ∨ isDcsPassThroughValid wch = true → P x →
    if (e.dcsString wch x).2 then P (e.dcsString wch x).1 else I (e.dcsString wch x).1
  dcsEnd : ∀ {x}, P x → I (e.dcsString asciiESC x).1
  csiComplete : ∀ {r}, Reached I P r → r.1.state = .ground → Reached I P (e.csiComplete r)

/-- An intermediate is a byte. -/
theorem isIntermediate_lt {wch : WChar} (h : isIntermediate wch = true) : wch.val < 256 := by
  have hle : wch ≤ 0x2F := (Bool.and_eq_true_iff.mp h).2 |> of_decide_eq_true
  exact (Fin.le_def.mp hle).trans_lt (by decide)

theorem isCsiPrivateMarker_lt {wch : WChar} (h : isCsiPrivateMarker wch = true) : wch.val < 256 := by
  simp only [isCsiPrivateMarker, Bool.or_eq_true, decide_eq_true_eq] at h
  rcases h with ((rfl | rfl) | rfl) | rfl <;> decide

/-- A new state keeps what holds in all. -/
theorem Common.enter {m : StateMachine} (h : Common m) (state : VTStates) :
    Common (m.enter state) := { h with }

theorem common_enterClear (m : StateMachine) (state : VTStates) : Common (m.enterClear state) where
  idShift_dvd := Nat.dvd_zero 8
  idShift_le := Nat.zero_le _
  idAccumulator_lt := Nat.one_pos
  oscString := fun _ hc => absurd hc List.not_mem_nil
  oscParameter_le := Nat.zero_le _

/-- An intermediate is a byte, and there is room for it or the number is cleared. -/
theorem Common.actionCollect {m : StateMachine} (h : Common m) {wch : WChar} (hwch : wch.val < 256) :
    Common (m.actionCollect wch) := by
  have hid := h.idAccumulator_lt
  have hdvd := h.idShift_dvd
  unfold StateMachine.actionCollect VTIDBuilder.addIntermediate
  split_ifs with hfull
  · exact { h with idAccumulator_lt := Nat.two_pow_pos _ }
  · refine { h with idShift_dvd := ?_, idShift_le := ?_, idAccumulator_lt := ?_ }
    · exact (Nat.dvd_add_left (Nat.dvd_refl 8)).mpr hdvd
    · dsimp only
      omega
    · dsimp only
      have hmul : wch.val * 2 ^ m.identifier.idShift ≤ 255 * 2 ^ m.identifier.idShift :=
        Nat.mul_le_mul_right _ (Nat.le_of_lt_succ hwch)
      calc m.identifier.idAccumulator + wch.val * 2 ^ m.identifier.idShift
          < 2 ^ m.identifier.idShift + 255 * 2 ^ m.identifier.idShift :=
            Nat.add_lt_add_of_lt_of_le hid hmul
        _ = 2 ^ (m.identifier.idShift + 8) := by ring

theorem Common.actionParam {m : StateMachine} (h : Common m) (wch : WChar) :
    Common (m.actionParam wch) := by
  unfold StateMachine.actionParam StateMachine.ensureParameter
  dsimp only
  split_ifs <;> exact { h with }

theorem Common.actionSubParam {m : StateMachine} (h : Common m) (wch : WChar) :
    Common (m.actionSubParam wch) := by
  unfold StateMachine.actionSubParam StateMachine.ensureParameter
  dsimp only
  split_ifs <;> exact { h with }

/-- A parameter does not change the state. -/
theorem state_actionParam (m : StateMachine) (wch : WChar) : (m.actionParam wch).state = m.state := by
  unfold StateMachine.actionParam StateMachine.ensureParameter
  dsimp only
  split_ifs <;> rfl

theorem state_actionSubParam (m : StateMachine) (wch : WChar) :
    (m.actionSubParam wch).state = m.state := by
  unfold StateMachine.actionSubParam StateMachine.ensureParameter
  dsimp only
  split_ifs <;> rfl

/-- The number of an OSC string stays below its limit. -/
theorem Common.actionOscParam {m : StateMachine} (h : Common m) (wch : WChar) :
    Common (m.actionOscParam wch) := { h with oscParameter_le := accumulateTo_le wch _ }

/-- A printable character is added to the string. -/
theorem Common.actionOscPut {m : StateMachine} (h : Common m) {wch : WChar} (hwch : 0x20 ≤ wch)
    (hc1 : isC1ControlCharacter wch = false) : Common (m.actionOscPut wch) :=
  { h with
    oscString := fun c hc => by
      rcases List.mem_append.mp hc with hc | hc
      · exact h.oscString c hc
      · rw [List.mem_singleton.mp hc]
        exact ⟨hwch, hc1⟩ }

/-- The final character fits in the identifier. -/
theorem Common.finalize_lt {m : StateMachine} (h : Common m) (wch : WChar) :
    m.identifier.finalize wch < maxId := by
  have hid := h.idAccumulator_lt
  have hshift : 2 ^ m.identifier.idShift ≤ 2 ^ 48 := Nat.pow_le_pow_right Nat.two_pos h.idShift_le
  have hmul : wch.val * 2 ^ m.identifier.idShift ≤ 65535 * 2 ^ m.identifier.idShift :=
    Nat.mul_le_mul_right _ (Nat.le_of_lt_succ wch.isLt)
  unfold VTIDBuilder.finalize maxId
  omega

/-- A control in the ground state that is none of ESC, CAN and SUB, and no C1 control. -/
theorem control_of_actionable {wch : WChar} (h : isActionableFromGround wch = true)
    (hcan : wch ≠ asciiCAN) (hsub : wch ≠ asciiSUB) (hescape : wch ≠ asciiESC)
    (hc1 : isC1ControlCharacter wch = false) : isC0Code wch = true ∨ wch = asciiDEL := by
  have hne {c : WChar} (hc : wch ≠ c) : wch.val ≠ c.val := fun heq => hc (Fin.ext heq)
  have hcan : wch.val ≠ 0x18 := hne hcan
  have hsub : wch.val ≠ 0x1A := hne hsub
  have hescape : wch.val ≠ 0x1B := hne hescape
  have h : wch.val ≤ 0x1F ∨ 0x7F ≤ wch.val ∧ wch.val ≤ 0x9F := by
    simpa [isActionableFromGround, Fin.le_def] using h
  have hc1 : 0x80 ≤ wch.val → 0x9F < wch.val := by
    simpa [isC1ControlCharacter, Fin.le_def, Fin.lt_def] using hc1
  by_cases hdelete : wch.val = 0x7F
  · exact Or.inr (Fin.ext hdelete)
  · have hc0 : (wch.val ≤ 0x17 ∨ wch.val = 0x19) ∨ 0x1C ≤ wch.val ∧ wch.val ≤ 0x1F := by omega
    left
    simpa [isC0Code, Fin.le_def, Fin.ext_iff] using hc0

/-- The letter that a C1 control stands for is none of these. -/
theorem c1To7Bit_plain {wch : WChar} (h : isC1ControlCharacter wch = true) :
    c1To7Bit wch ≠ asciiCAN ∧ c1To7Bit wch ≠ asciiSUB ∧
      isC1ControlCharacter (c1To7Bit wch) = false := by
  have hrange : 0x80 ≤ wch.val ∧ wch.val ≤ 0x9F := by
    simpa [isC1ControlCharacter, Fin.le_def] using h
  have hval : (c1To7Bit wch).val = wch.val - 0x40 := by
    have hle : (0x40 : WChar) ≤ wch := by
      rw [Fin.le_def]
      exact le_trans (by decide) hrange.1
    exact Fin.sub_val_of_le hle
  have hne {c : WChar} (hc : c.val < 0x40) : c1To7Bit wch ≠ c := by
    rintro rfl
    omega
  refine ⟨hne (by decide), hne (by decide), ?_⟩
  have hlt : (c1To7Bit wch).val < 0x80 := by omega
  have hnot : ¬ (0x80 : WChar) ≤ c1To7Bit wch := not_le.mpr (Fin.lt_def.mpr hlt)
  rw [isC1ControlCharacter, decide_eq_false hnot, Bool.false_and]

/-- Behind ESC the parser waits for what follows. -/
theorem state_processPlain_escape (e : Engine σ) (r : Run σ) :
    (processPlain e asciiESC r).1.state ≠ .ground := by
  unfold processPlain
  split_ifs with hescape
  · exact (by decide : VTStates.escape ≠ .ground)
  · have hstring : r.1.state = .oscString ∨ r.1.state = .oscParam := by
      by_contra hne
      rw [not_or] at hne
      exact hescape (by simp [hne.1, hne.2, isEscape])
    unfold event
    rcases hstring with hstate | hstate <;> rw [hstate] <;>
      exact (by decide : VTStates.oscTermination ≠ .ground)

/-! ### The events -/

section Events

variable {e : Engine σ} {I P : σ → Prop} (h : e.Keeps I P)

/-- Outside of a DCS string the engine keeps its own invariant. -/
theorem reached_of {m : StateMachine} {x : σ} (hm : Common m) (hin : InState m.state m)
    (hstate : m.state ≠ .dcsPassThrough) (hx : I x) : Reached I P (m, x) :=
  ⟨hm, hin, by rwa [if_neg hstate]⟩

/-- A new state is reached. -/
theorem reached_enter {m : StateMachine} {x : σ} {state : VTStates} (hm : Common m)
    (hin : InState state (m.enter state)) (hstate : state ≠ .dcsPassThrough) (hx : I x) :
    Reached I P (m.enter state, x) := reached_of (hm.enter state) hin hstate hx

/-- So is a state with a clear. -/
theorem reached_enterClear {m : StateMachine} {x : σ} {state : VTStates}
    (hin : InState state (m.enterClear state)) (hstate : state ≠ .dcsPassThrough) (hx : I x) :
    Reached I P (m.enterClear state, x) := reached_of (common_enterClear m state) hin hstate hx

include h

/-- An action is sent without a change of state. -/
theorem Reached.send {r : Run σ} {a : Action} (hr : Reached I P r)
    (hstate : r.1.state ≠ .dcsPassThrough) (ha : a.WellFormed) : Reached I P (e.send a r) := by
  obtain ⟨hm, hin, hx⟩ := hr
  rw [if_neg hstate] at hx
  exact reached_of hm hin hstate (h.act ha hx)

/-- The dispatch of an escape sequence. -/
theorem reached_escDispatch {m : StateMachine} {x : σ} (hm : Common m) (hx : I x) (wch : WChar) :
    Reached I P (escDispatch e wch (m, x)) :=
  reached_enter hm trivial (by decide) (h.act (hm.finalize_lt wch) hx)

/-- The dispatch of a VT52 sequence has no parameter or two. -/
theorem reached_vt52EscDispatch {m : StateMachine} {x : σ} (hm : Common m)
    (hlength : m.parameters = [] ∨ m.parameters.length = 2) (hbounds : InBounds m.parameters)
    (hx : I x) (wch : WChar) : Reached I P (vt52EscDispatch e wch (m, x)) :=
  reached_enter hm trivial (by decide) (h.act (a := .vt52EscDispatch _ _)
    ⟨hm.finalize_lt wch, hlength, hbounds⟩ hx)

/-- The dispatch of a control sequence. -/
theorem reached_csiDispatch {m : StateMachine} {x : σ} (hm : Common m) (hcollected : Collected m)
    (hx : I x) (wch : WChar) : Reached I P (csiDispatch e wch (m, x)) := by
  refine h.csiComplete (reached_enter hm trivial (by decide) (h.act (a := .csiDispatch _ _ _ _) ?_ hx)) rfl
  exact ⟨hm.finalize_lt wch, hcollected.parameters_le, hcollected.parameters_inBounds,
    hcollected.subParameters_inBounds, hcollected.length_ranges, hcollected.tiles,
    hcollected.length_subParameters_lt⟩

/-- The dispatch of an OSC string. -/
theorem reached_oscDispatch {m : StateMachine} {x : σ} (hm : Common m) (hx : I x) :
    Reached I P (oscDispatch e (m, x)) :=
  reached_enter hm trivial (by decide) (h.act (a := .oscDispatch _ _)
    ⟨hm.oscParameter_le, hm.oscString⟩ hx)

/-- The dispatch of a DCS string may give out a handler. -/
theorem reached_dcsDispatch {m : StateMachine} {x : σ} (hm : Common m) (hcollected : Collected m)
    (hx : I x) (wch : WChar) : Reached I P (dcsDispatch e wch (m, x)) := by
  have hkeeps := h.dcsDispatch (hm.finalize_lt wch) hcollected.parameters_le
    hcollected.parameters_inBounds hx
  unfold dcsDispatch
  generalize e.dcsDispatch (m.identifier.finalize wch) m.parameters x = answer at hkeeps ⊢
  obtain ⟨y, handler⟩ := answer
  cases handler with
  | false => exact reached_enter { hm with } trivial (by decide) hkeeps
  | true => exact ⟨{ hm with }, rfl, hkeeps⟩

/-- In the ground state a control is executed. -/
theorem reached_eventGround {wch : WChar} {r : Run σ} (hr : Reached I P r)
    (hstate : r.1.state = .ground) (hwch : isC0Code wch = true ∨ wch = asciiDEL) :
    Reached I P (eventGround e wch r) := by
  unfold eventGround
  have hcontrol : (isC0Code wch || isDelete wch) = true := by
    rcases hwch with hc0 | rfl
    · rw [hc0, Bool.true_or]
    · rfl
  rw [if_pos hcontrol]
  refine hr.send h (hstate ▸ by decide) ?_
  rcases hwch with hc0 | hdelete
  · exact Or.inl hc0
  · exact Or.inr (Or.inr (Or.inr hdelete))

theorem reached_eventEscape {wch : WChar} {m : StateMachine} {x : σ} (hm : Common m)
    (hparams : m.parameters = []) (hx : I x) (hstate : m.state = .escape) :
    Reached I P (eventEscape e wch (m, x)) := by
  have hr : Reached I P (m, x) := reached_of hm (hstate ▸ hparams) (hstate ▸ by decide) hx
  unfold eventEscape
  dsimp only
  split_ifs with hc0 hdelete hinter hansi
  · exact hr.send h (hstate ▸ by decide) (Or.inl hc0)
  · exact hr
  · exact reached_enter (hm.actionCollect (isIntermediate_lt hinter)) hparams (by decide) hx
  · exact reached_enterClear (collected_enterClear m _) (by decide) hx
  · exact reached_enter hm trivial (by decide) hx
  · exact reached_enterClear (collected_enterClear m _) (by decide) hx
  · exact reached_enter hm trivial (by decide) hx
  · exact reached_escDispatch h hm hx wch
  · exact reached_enter hm
      ⟨by rw [StateMachine.enter, hparams]; exact Nat.zero_le _, hparams ▸ inBounds_nil⟩ (by decide) hx
  · exact reached_vt52EscDispatch h hm (Or.inl hparams) (hparams ▸ inBounds_nil) hx wch

theorem reached_eventEscapeIntermediate {wch : WChar} {m : StateMachine} {x : σ} (hm : Common m)
    (hparams : m.parameters = []) (hx : I x) (hstate : m.state = .escapeIntermediate) :
    Reached I P (eventEscapeIntermediate e wch (m, x)) := by
  have hr : Reached I P (m, x) := reached_of hm (hstate ▸ hparams) (hstate ▸ by decide) hx
  unfold eventEscapeIntermediate
  dsimp only
  split_ifs with hc0 hinter hdelete hansi
  · exact hr.send h (hstate ▸ by decide) (Or.inl hc0)
  · exact reached_of (hm.actionCollect (isIntermediate_lt hinter)) (hstate ▸ hparams)
      (hstate ▸ by decide) hx
  · exact hr
  · exact reached_escDispatch h hm hx wch
  · exact reached_enter hm
      ⟨by rw [StateMachine.enter, hparams]; exact Nat.zero_le _, hparams ▸ inBounds_nil⟩ (by decide) hx
  · exact reached_vt52EscDispatch h hm (Or.inl hparams) (hparams ▸ inBounds_nil) hx wch

/-- One in the parameters of VT52. -/
theorem reached_eventVt52Param {wch : WChar} {m : StateMachine} {x : σ} (hm : Common m)
    (hparams : m.parameters.length ≤ 1 ∧ InBounds m.parameters) (hx : I x)
    (hstate : m.state = .vt52Param) : Reached I P (eventVt52Param e wch (m, x)) := by
  have hr : Reached I P (m, x) := reached_of hm (hstate ▸ hparams) (hstate ▸ by decide) hx
  have hm' : Common { m with parameters := m.parameters ++ [some wch.val] } := { hm with }
  have hbounds : InBounds (m.parameters ++ [some wch.val]) := by
    intro v hv
    rcases List.mem_append.mp hv with hv | hv
    · exact hparams.2 v hv
    · rw [List.mem_singleton, Option.some_inj] at hv
      exact hv ▸ Nat.le_of_lt_succ wch.isLt
  unfold eventVt52Param
  dsimp only
  split_ifs with hc0 hdelete hlength
  · exact hr.send h (hstate ▸ by decide) (Or.inl hc0)
  · exact hr
  · exact reached_vt52EscDispatch h hm' (Or.inr hlength) hbounds hx _
  · refine reached_of hm' (hstate ▸ ⟨?_, hbounds⟩) (hstate ▸ by decide) hx
    rw [List.length_append, List.length_singleton] at hlength ⊢
    omega

/-! Sequences with parameters -/

theorem reached_eventCsiEntry {wch : WChar} {m : StateMachine} {x : σ} (hm : Common m)
    (hcollected : Collected m) (hx : I x) (hstate : m.state = .csiEntry) :
    Reached I P (eventCsiEntry e wch (m, x)) := by
  have hr : Reached I P (m, x) := reached_of hm (hstate ▸ hcollected) (hstate ▸ by decide) hx
  unfold eventCsiEntry
  dsimp only
  split_ifs with hc0 hdelete hinter hparam hsub hmarker
  · exact hr.send h (hstate ▸ by decide) (Or.inl hc0)
  · exact hr
  · exact reached_enter (hm.actionCollect (isIntermediate_lt hinter))
      ((hcollected.actionCollect wch).enter _) (by decide) hx
  · exact reached_enter (hm.actionParam wch) ((hcollected.actionParam wch).enter _) (by decide) hx
  · obtain ⟨hsubs, hsome⟩ := hcollected.actionSubParam (Or.inl hsub)
    exact reached_enter (hm.actionSubParam wch) ⟨hsubs.enter _, hsome⟩ (by decide) hx
  · exact reached_enter (hm.actionCollect (isCsiPrivateMarker_lt hmarker))
      ((hcollected.actionCollect wch).enter _) (by decide) hx
  · exact reached_csiDispatch h hm hcollected hx wch

theorem reached_eventCsiIntermediate {wch : WChar} {m : StateMachine} {x : σ} (hm : Common m)
    (hcollected : Collected m) (hx : I x) (hstate : m.state = .csiIntermediate) :
    Reached I P (eventCsiIntermediate e wch (m, x)) := by
  have hr : Reached I P (m, x) := reached_of hm (hstate ▸ hcollected) (hstate ▸ by decide) hx
  unfold eventCsiIntermediate
  dsimp only
  split_ifs with hc0 hinter hdelete hinvalid
  · exact hr.send h (hstate ▸ by decide) (Or.inl hc0)
  · exact reached_of (hm.actionCollect (isIntermediate_lt hinter))
      (hstate ▸ hcollected.actionCollect wch) (hstate ▸ by decide) hx
  · exact hr
  · exact reached_enter hm trivial (by decide) hx
  · exact reached_csiDispatch h hm hcollected hx wch

theorem reached_eventCsiIgnore {wch : WChar} {m : StateMachine} {x : σ} (hm : Common m) (hx : I x)
    (hstate : m.state = .csiIgnore) : Reached I P (eventCsiIgnore e wch (m, x)) := by
  have hr : Reached I P (m, x) := reached_of hm (hstate ▸ trivial) (hstate ▸ by decide) hx
  unfold eventCsiIgnore
  dsimp only
  split_ifs with hc0 hdelete hinter hinvalid
  · exact hr.send h (hstate ▸ by decide) (Or.inl hc0)
  · exact hr
  · exact hr
  · exact hr
  · exact reached_enter hm trivial (by decide) hx

theorem reached_eventCsiParam {wch : WChar} {m : StateMachine} {x : σ} (hm : Common m)
    (hcollected : Collected m) (hx : I x) (hstate : m.state = .csiParam) :
    Reached I P (eventCsiParam e wch (m, x)) := by
  have hr : Reached I P (m, x) := reached_of hm (hstate ▸ hcollected) (hstate ▸ by decide) hx
  have hparam := (state_actionParam m wch).trans hstate
  unfold eventCsiParam
  dsimp only
  split_ifs with hc0 hdelete hnumeric hsub hinter hinvalid
  · exact hr.send h (hstate ▸ by decide) (Or.inl hc0)
  · exact hr
  · exact reached_of (hm.actionParam wch) (hparam ▸ hcollected.actionParam wch) (hparam ▸ by decide) hx
  · obtain ⟨hsubs, hsome⟩ := hcollected.actionSubParam (Or.inl hsub)
    exact reached_enter (hm.actionSubParam wch) ⟨hsubs.enter _, hsome⟩ (by decide) hx
  · exact reached_enter (hm.actionCollect (isIntermediate_lt hinter))
      ((hcollected.actionCollect wch).enter _) (by decide) hx
  · exact reached_enter hm trivial (by decide) hx
  · exact reached_csiDispatch h hm hcollected hx wch

theorem reached_eventCsiSubParam {wch : WChar} {m : StateMachine} {x : σ} (hm : Common m)
    (hcollected : Collected m ∧ m.subParameters ≠ []) (hx : I x) (hstate : m.state = .csiSubParam) :
    Reached I P (eventCsiSubParam e wch (m, x)) := by
  have hr : Reached I P (m, x) := reached_of hm (hstate ▸ hcollected) (hstate ▸ by decide) hx
  have hparam := (state_actionSubParam m wch).trans hstate
  obtain ⟨hcollected, hsome⟩ := hcollected
  unfold eventCsiSubParam
  dsimp only
  split_ifs with hc0 hdelete hnumeric hdelimiter hinter hinvalid
  · exact hr.send h (hstate ▸ by decide) (Or.inl hc0)
  · exact hr
  · exact reached_of (hm.actionSubParam wch) (hparam ▸ hcollected.actionSubParam (Or.inr hsome))
      (hparam ▸ by decide) hx
  · exact reached_enter (hm.actionParam wch) ((hcollected.actionParam wch).enter _) (by decide) hx
  · exact reached_enter (hm.actionCollect (isIntermediate_lt hinter))
      ((hcollected.actionCollect wch).enter _) (by decide) hx
  · exact reached_enter hm trivial (by decide) hx
  · exact reached_csiDispatch h hm hcollected hx wch

/-! Strings -/

/-- One in the number of an OSC string. -/
theorem reached_eventOscParam {wch : WChar} {m : StateMachine} {x : σ} (hm : Common m) (hx : I x)
    (hstate : m.state = .oscParam) : Reached I P (eventOscParam e wch (m, x)) := by
  have hr : Reached I P (m, x) := reached_of hm (hstate ▸ trivial) (hstate ▸ by decide) hx
  unfold eventOscParam
  dsimp only
  split_ifs
  · exact reached_oscDispatch h hm hx
  · exact reached_enter hm trivial (by decide) hx
  · exact reached_of (hm.actionOscParam wch) (hstate ▸ trivial) (hstate ▸ by decide) hx
  · exact reached_enter hm trivial (by decide) hx
  · exact hr

/-- The other controls were taken before, and C1 controls are not accepted or not alone. -/
theorem reached_eventOscString {wch : WChar} {m : StateMachine} {x : σ} (hm : Common m) (hx : I x)
    (hstate : m.state = .oscString) (hcan : wch ≠ asciiCAN) (hsub : wch ≠ asciiSUB)
    (hc1 : isC1ControlCharacter wch = false) : Reached I P (eventOscString e wch (m, x)) := by
  have hr : Reached I P (m, x) := reached_of hm (hstate ▸ trivial) (hstate ▸ by decide) hx
  unfold eventOscString
  dsimp only
  split_ifs with hterminator hescape hinvalid
  · exact reached_oscDispatch h hm hx
  · exact reached_enter hm trivial (by decide) hx
  · exact hr
  · have hwch : 0x20 ≤ wch := by
      have hne {c : WChar} (hc : wch ≠ c) : wch.val ≠ c.val := fun heq => hc (Fin.ext heq)
      have hcan : wch.val ≠ 0x18 := hne hcan
      have hsub : wch.val ≠ 0x1A := hne hsub
      have hescape : wch.val ≠ 0x1B := hne (c := asciiESC) fun heq => hescape (heq ▸ rfl)
      simp only [isOscInvalid, Bool.or_eq_true, Bool.and_eq_true, decide_eq_true_eq, Fin.le_def,
        Fin.ext_iff] at hinvalid
      rw [Fin.le_def]
      change 32 ≤ wch.val
      change ¬((wch.val ≤ 23 ∨ wch.val = 25) ∨ 28 ≤ wch.val ∧ wch.val ≤ 31) at hinvalid
      omega
    exact reached_of (hm.actionOscPut hwch hc1) (hstate ▸ trivial) (hstate ▸ by decide) hx

/-- One behind the ESC at its end. -/
theorem reached_eventOscTermination {wch : WChar} {m : StateMachine} {x : σ} (hm : Common m)
    (hx : I x) : Reached I P (eventOscTermination e wch (m, x)) := by
  unfold eventOscTermination
  split_ifs
  · exact reached_oscDispatch h hm hx
  · exact reached_eventEscape h (common_enterClear m _) rfl hx rfl

theorem reached_eventDcsEntry {wch : WChar} {m : StateMachine} {x : σ} (hm : Common m)
    (hcollected : Collected m) (hx : I x) (hstate : m.state = .dcsEntry) :
    Reached I P (eventDcsEntry e wch (m, x)) := by
  have hr : Reached I P (m, x) := reached_of hm (hstate ▸ hcollected) (hstate ▸ by decide) hx
  unfold eventDcsEntry
  dsimp only
  split_ifs with hc0 hdelete hsub hparam hinter
  · exact hr
  · exact hr
  · exact reached_enter hm trivial (by decide) hx
  · exact reached_enter (hm.actionParam wch) ((hcollected.actionParam wch).enter _) (by decide) hx
  · exact reached_enter (hm.actionCollect (isIntermediate_lt hinter))
      ((hcollected.actionCollect wch).enter _) (by decide) hx
  · exact reached_dcsDispatch h hm hcollected hx wch

theorem reached_eventDcsIntermediate {wch : WChar} {m : StateMachine} {x : σ} (hm : Common m)
    (hcollected : Collected m) (hx : I x) (hstate : m.state = .dcsIntermediate) :
    Reached I P (eventDcsIntermediate e wch (m, x)) := by
  have hr : Reached I P (m, x) := reached_of hm (hstate ▸ hcollected) (hstate ▸ by decide) hx
  unfold eventDcsIntermediate
  dsimp only
  split_ifs with hc0 hdelete hinter hinvalid
  · exact hr
  · exact hr
  · exact reached_of (hm.actionCollect (isIntermediate_lt hinter))
      (hstate ▸ hcollected.actionCollect wch) (hstate ▸ by decide) hx
  · exact reached_enter hm trivial (by decide) hx
  · exact reached_dcsDispatch h hm hcollected hx wch

theorem reached_eventDcsParam {wch : WChar} {m : StateMachine} {x : σ} (hm : Common m)
    (hcollected : Collected m) (hx : I x) (hstate : m.state = .dcsParam) :
    Reached I P (eventDcsParam e wch (m, x)) := by
  have hparam := (state_actionParam m wch).trans hstate
  unfold eventDcsParam
  dsimp only
  split_ifs with hnumeric hinter hinvalid
  · exact reached_of (hm.actionParam wch) (hparam ▸ hcollected.actionParam wch) (hparam ▸ by decide) hx
  · exact reached_enter (hm.actionCollect (isIntermediate_lt hinter))
      ((hcollected.actionCollect wch).enter _) (by decide) hx
  · exact reached_enter hm trivial (by decide) hx
  · exact reached_dcsDispatch h hm hcollected hx wch

theorem reached_eventDcsPassThrough {wch : WChar} {m : StateMachine} {x : σ} (hm : Common m)
    (hhandler : m.dcsStringHandler = true) (hx : P x) (hstate : m.state = .dcsPassThrough) :
    Reached I P (eventDcsPassThrough e wch (m, x)) := by
  have hr : Reached I P (m, x) := ⟨hm, hstate ▸ hhandler, by rwa [if_pos hstate]⟩
  unfold eventDcsPassThrough
  dsimp only
  split_ifs with hdata hmore
  · have hkeeps := h.dcsString (Bool.or_eq_true_iff.mp hdata) hx
    rw [if_pos hmore] at hkeeps
    exact ⟨hm, hstate ▸ hhandler, by rwa [if_pos hstate]⟩
  · have hkeeps := h.dcsString (Bool.or_eq_true_iff.mp hdata) hx
    rw [if_neg hmore] at hkeeps
    exact reached_enter hm trivial (by decide) hkeeps
  · exact hr

/-! ### Runs -/

/-- One event. In the ground state only controls come one at a time, and where ESC is an event it
may end a string. -/
theorem reached_event {wch : WChar} {r : Run σ} (hr : Reached I P r) (hcan : wch ≠ asciiCAN)
    (hsub : wch ≠ asciiSUB) (hc1 : isC1ControlCharacter wch = false)
    (hground : r.1.state = .ground → isC0Code wch = true ∨ wch = asciiDEL) :
    Reached I P (event e wch r) := by
  obtain ⟨m, x⟩ := r
  have ⟨hm, hin, hx⟩ := hr
  unfold event
  dsimp only at hin hx hground hm ⊢
  cases hstate : m.state
  all_goals rw [hstate] at hin hx
  case ground => exact reached_eventGround h hr hstate (hground hstate)
  case escape => exact reached_eventEscape h hm hin hx hstate
  case escapeIntermediate => exact reached_eventEscapeIntermediate h hm hin hx hstate
  case csiEntry => exact reached_eventCsiEntry h hm hin hx hstate
  case csiIntermediate => exact reached_eventCsiIntermediate h hm hin hx hstate
  case csiIgnore => exact reached_eventCsiIgnore h hm hx hstate
  case csiParam => exact reached_eventCsiParam h hm hin hx hstate
  case csiSubParam => exact reached_eventCsiSubParam h hm hin hx hstate
  case oscParam => exact reached_eventOscParam h hm hx hstate
  case oscString => exact reached_eventOscString h hm hx hstate hcan hsub hc1
  case oscTermination => exact reached_eventOscTermination h hm hx
  case ss3Entry => exact hin.elim
  case ss3Param => exact hin.elim
  case vt52Param => exact reached_eventVt52Param h hm hin hx hstate
  case dcsEntry => exact reached_eventDcsEntry h hm hin hx hstate
  case dcsIgnore => exact hr
  case dcsIntermediate => exact reached_eventDcsIntermediate h hm hin hx hstate
  case dcsParam => exact reached_eventDcsParam h hm hin hx hstate
  case dcsPassThrough => exact reached_eventDcsPassThrough h hm hin hx hstate
  case sosPmApcString => exact hr

/-- An interrupt ends the data of a DCS sequence. -/
theorem reached_actionInterrupt {r : Run σ} (hr : Reached I P r) :
    Common (actionInterrupt e r).1 ∧ I (actionInterrupt e r).2 := by
  obtain ⟨hm, -, hx⟩ := hr
  unfold actionInterrupt
  split_ifs with hstate
  · rw [if_pos hstate] at hx
    exact ⟨{ hm with }, h.dcsEnd hx⟩
  · rw [if_neg hstate] at hx
    exact ⟨hm, hx⟩

/-- One that does not interrupt, in any state. -/
theorem reached_processPlain {wch : WChar} {r : Run σ} (hr : Reached I P r) (hcan : wch ≠ asciiCAN)
    (hsub : wch ≠ asciiSUB) (hc1 : isC1ControlCharacter wch = false)
    (hground : r.1.state = .ground → isActionableFromGround wch = true) :
    Reached I P (processPlain e wch r) := by
  unfold processPlain
  split_ifs with hescape
  · exact reached_enterClear rfl (by decide) (reached_actionInterrupt h hr).2
  · refine reached_event h hr hcan hsub hc1 fun hstate => ?_
    have hne : wch ≠ asciiESC := by
      rintro rfl
      rw [hstate] at hescape
      exact hescape rfl
    exact control_of_actionable (hground hstate) hcan hsub hne hc1

/-- One character that does not belong to a run. -/
theorem reached_processCharacter {wch : WChar} {r : Run σ} (hr : Reached I P r)
    (hground : r.1.state = .ground → isActionableFromGround wch = true) :
    Reached I P (processCharacter e wch r) := by
  unfold processCharacter
  split_ifs with hcancel hc1 haccept
  · obtain ⟨hm, hx⟩ := reached_actionInterrupt h hr
    have hwch : wch = asciiCAN ∨ wch = asciiSUB := by simpa using hcancel
    exact reached_enter hm trivial (by decide)
      (h.act (a := .execute wch) (Or.inr (or_assoc.mp (Or.inl hwch))) hx)
  · -- ESC, and the letter behind it
    obtain ⟨hcan, hsub, hplain⟩ := c1To7Bit_plain hc1
    refine reached_processPlain h ?_ hcan hsub hplain fun hstate =>
      absurd hstate (state_processPlain_escape e r)
    exact reached_processPlain h hr (by decide) (by decide) rfl fun _ => rfl
  · exact hr
  · have hwch : wch ≠ asciiCAN ∧ wch ≠ asciiSUB := by simpa using hcancel
    exact reached_processPlain h hr hwch.1 hwch.2 (Bool.eq_false_of_not_eq_true hc1) hground

/-- The loop of a sequence. -/
theorem reached_vtLoop (s : WString) {r : Run σ} (hr : Reached I P r)
    (hground : r.1.state = .ground → ∀ c, s.head? = some c → isActionableFromGround c = true) :
    Reached I P (vtLoop e s r).2 := by
  induction s generalizing r with
  | nil => exact hr
  | cons c s ih =>
      have hone := reached_processCharacter h hr (hground · c rfl)
      rw [vtLoop]
      split_ifs with hstate
      · exact hone
      · exact ih hone fun hground => absurd hground hstate

/-- The loop of a string, which begins in the ground state. -/
theorem reached_groundLoop (s : WString) {r : Run σ} (hr : Reached I P r)
    (hstate : s = [] ∨ r.1.state = .ground) : Reached I P (groundLoop e s r) := by
  induction hn : s.length using Nat.strong_induction_on generalizing s r with
  | _ n ih =>
    cases s with
    | nil =>
        rw [groundLoop]
        exact hr
    | cons c s =>
        have hground : r.1.state = .ground := hstate.resolve_left (List.cons_ne_nil c s)
        rw [groundLoop]
        set run := (c :: s).takeWhile fun c => !isActionableFromGround c with hrun
        set rest := (c :: s).dropWhile fun c => !isActionableFromGround c with hrest
        have hsplit : run ++ rest = c :: s := List.takeWhile_append_dropWhile
        have hplain : ∀ d ∈ run, isActionableFromGround d = false := by
          intro d hd
          have := List.mem_takeWhile_imp hd
          simpa using this
        -- the run
        set r' := if run = [] then r else e.send (.printString run) r with hr'
        have hprint : Reached I P r' := by
          rw [hr']
          split_ifs with hnil
          · exact hr
          · exact hr.send h (hground ▸ by decide) ⟨hnil, hplain⟩
        -- the characters that follow it
        have hhead : ∀ d, rest.head? = some d → isActionableFromGround d = true := by
          intro d hd
          have := List.head?_dropWhile_not (fun c => !isActionableFromGround c) (c :: s)
          rw [← hrest, hd] at this
          simpa using this
        obtain ⟨taken, htaken, -, hend⟩ := vtLoop_spec (e := e) rest (r := r') (Or.inr hhead)
        have hshort : (vtLoop e rest r').1.length < n := hn ▸ length_vtLoop_dropWhile_lt e c s _
        exact ih _ hshort _ (reached_vtLoop h rest hprint fun _ => hhead) hend rfl

end Events

/-- **Every output, in any pieces, keeps parser and engine in a good state.** -/
theorem processString_keeps {e : Engine σ} {I P : σ → Prop} (h : e.Keeps I P)
    (pieces : List WString) {r : Run σ} (hr : Reached I P r) :
    Reached I P (pieces.foldl (fun r s => processString e s r) r) := by
  induction pieces generalizing r with
  | nil => exact hr
  | cons s pieces ih =>
      rw [List.foldl_cons]
      refine ih ?_
      unfold processString
      split_ifs with hstate
      · obtain ⟨-, -, -, hend⟩ := vtLoop_spec (e := e) s (r := r) (Or.inl hstate)
        exact reached_groundLoop h _ (reached_vtLoop h s hr fun hground => absurd hground hstate) hend
      · exact reached_groundLoop h s hr (Or.inr (not_not.mp hstate))

/-! ### What is asked of the engine -/

/-- The engine's state is the list of what it was asked to do, as it was asked, with the data of
every DCS sequence wanted to its end. The modes do not change, and there are no macros. -/
def recordEngine (acceptC1 ansi : Bool) : Engine (List Action) where
  act := fun a x => x ++ [a]
  dcsDispatch := fun _ _ x => (x, true)
  dcsString := fun wch x => (x, wch ≠ asciiESC)
  csiComplete := id
  acceptC1 := fun _ => acceptC1
  ansi := fun _ => ansi

/-- The engine that records what it is asked keeps it well formed. -/
theorem recordEngine_keeps (acceptC1 ansi : Bool) :
    (recordEngine acceptC1 ansi).Keeps (fun x => ∀ a ∈ x, a.WellFormed)
      (fun x => ∀ a ∈ x, a.WellFormed) where
  act := by
    intro a x ha hx b hb
    rcases List.mem_append.mp hb with hb | hb
    · exact hx b hb
    · rwa [List.mem_singleton.mp hb]
  dcsDispatch := fun _ _ _ hx => hx
  dcsString := fun _ hx => by split_ifs <;> exact hx
  dcsEnd := fun hx => hx
  csiComplete := fun hr _ => hr

/-- The parser at the start. -/
theorem common_default : Common {} where
  idShift_dvd := Nat.dvd_zero 8
  idShift_le := Nat.zero_le _
  idAccumulator_lt := Nat.one_pos
  oscString := fun _ hc => absurd hc List.not_mem_nil
  oscParameter_le := Nat.zero_le _

/-- Parameters with subparameters, in pieces, behind the data of another sequence. -/
theorem processString_keeps_colour :
    Reached (fun x => ∀ a ∈ x, a.WellFormed) (fun x => ∀ a ∈ x, a.WellFormed)
      ([asciiESC :: L "Pq#0", asciiESC :: L "[38:2:", L ":255;;4m"].foldl
        (fun r s => processString (recordEngine false true) s r) ({}, [])) :=
  processString_keeps (recordEngine_keeps false true) _
    (reached_of common_default trivial (by decide) fun _ ha => absurd ha List.not_mem_nil)

end Axan.VtParser
