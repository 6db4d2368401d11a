import Axan.VtParser.StateMachine

/-!
# Output in pieces

The output of a program arrives in pieces of any size, and `processString` prints the plain
characters of a piece in one go. Where the pieces are cut makes no difference to the parser, nor to
anything of the terminal that does not depend on how a run of plain characters is cut.

* `Engine.Indifferent` — a relation between states of the engine that its actions keep and that
  does not see where a run is cut.
* `processOne` — one character, without runs.
* `processString_same` — the loops take one character after the other.
* `processString_flatten` — **the pieces do not matter**.
* `traceEngine` — an engine that writes down what it is asked to do.
-/

namespace Axan.VtParser

open Axan.Base

variable {σ : Type}

/-- The engine's actions keep the relation, its answers do not depend on more, and a run may be
printed in two parts. -/
structure Engine.Indifferent (e : Engine σ) (R : σ → σ → Prop) : Prop where
  equivalence : Equivalence R
  act : ∀ {x y} (a : Action), R x y → R (e.act a x) (e.act a y)
  dcsDispatch : ∀ {x y} (id : ℕ) (ps : List VTParameter), R x y →
    R (e.dcsDispatch id ps x).1 (e.dcsDispatch id ps y).1 ∧
      (e.dcsDispatch id ps x).2 = (e.dcsDispatch id ps y).2
  dcsString : ∀ {x y} (wch : WChar), R x y →
    R (e.dcsString wch x).1 (e.dcsString wch y).1 ∧ (e.dcsString wch x).2 = (e.dcsString wch y).2
  csiComplete : ∀ {x y} (m : StateMachine), R x y →
    (e.csiComplete (m, x)).1 = (e.csiComplete (m, y)).1 ∧
      R (e.csiComplete (m, x)).2 (e.csiComplete (m, y)).2
  acceptC1 : ∀ {x y}, R x y → e.acceptC1 x = e.acceptC1 y
  ansi : ∀ {x y}, R x y → e.ansi x = e.ansi y
  printString : ∀ (s t : WString) (x : σ), s ≠ [] → t ≠ [] →
    R (e.act (.printString (s ++ t)) x) (e.act (.printString t) (e.act (.printString s) x))

/-- The same parser, and related states of the engine. -/
def Same (R : σ → σ → Prop) (r r' : Run σ) : Prop := r.1 = r'.1 ∧ R r.2 r'.2

/-- One character; a plain one in the ground state is a run of its own. -/
def processOne (e : Engine σ) (wch : WChar) (r : Run σ) : Run σ :=
  if r.1.state = .ground ∧ isActionableFromGround wch = false then e.send (.printString [wch]) r
  else processCharacter e wch r

variable {e : Engine σ} {R : σ → σ → Prop}

/-- A run is the same as itself. -/
theorem Same.rfl (h : e.Indifferent R) (r : Run σ) : Same R r r := ⟨by rfl, h.equivalence.refl _⟩

theorem Same.symm (h : e.Indifferent R) {r r' : Run σ} (hr : Same R r r') : Same R r' r :=
  ⟨hr.1.symm, h.equivalence.symm hr.2⟩

theorem Same.trans (h : e.Indifferent R) {r r' r'' : Run σ} (hr : Same R r r')
    (hr' : Same R r' r'') : Same R r r'' :=
  ⟨hr.1.trans hr'.1, h.equivalence.trans hr.2 hr'.2⟩

/-! ### One character -/

section Character

variable (h : e.Indifferent R)

include h

theorem same_send (a : Action) {r r' : Run σ} (hr : Same R r r') :
    Same R (e.send a r) (e.send a r') := ⟨hr.1, h.act a hr.2⟩

theorem same_actionInterrupt {r r' : Run σ} (hr : Same R r r') :
    Same R (actionInterrupt e r) (actionInterrupt e r') := by
  obtain ⟨m, x⟩ := r
  obtain ⟨m', y⟩ := r'
  obtain ⟨rfl, hxy⟩ := hr
  unfold actionInterrupt
  dsimp only
  split_ifs
  · exact ⟨by rfl, (h.dcsString _ hxy).1⟩
  · exact ⟨by rfl, hxy⟩

/-- The events of related runs are related. -/
theorem same_event (wch : WChar) {r r' : Run σ} (hr : Same R r r') :
    Same R (event e wch r) (event e wch r') := by
  obtain ⟨m, x⟩ := r
  obtain ⟨m', y⟩ := r'
  obtain ⟨rfl, hxy : R x y⟩ := hr
  have hescape (m : StateMachine) : Same R (eventEscape e wch (m, x)) (eventEscape e wch (m, y)) := by
    unfold eventEscape escDispatch vt52EscDispatch
    rw [h.ansi hxy]
    dsimp only
    split_ifs
    all_goals first
      | exact ⟨by rfl, h.act _ hxy⟩
      | exact ⟨by rfl, hxy⟩
  have hcsi : Same R (csiDispatch e wch (m, x)) (csiDispatch e wch (m, y)) :=
    h.csiComplete _ (h.act _ hxy)
  have hdcs : Same R (dcsDispatch e wch (m, x)) (dcsDispatch e wch (m, y)) := by
    obtain ⟨hstate, hhandler⟩ := h.dcsDispatch (m.identifier.finalize wch) m.parameters hxy
    unfold dcsDispatch
    exact ⟨by simp only [hhandler], hstate⟩
  unfold event
  cases hstate : m.state
  case escape => exact hescape m
  case oscTermination =>
    unfold eventOscTermination
    split_ifs
    · exact ⟨by rfl, h.act _ hxy⟩
    · exact hescape _
  case dcsPassThrough =>
    obtain ⟨hdata, hmore⟩ := h.dcsString wch hxy
    unfold eventDcsPassThrough
    dsimp only
    split_ifs <;> first | exact ⟨by rfl, hxy⟩ | exact ⟨by rfl, hdata⟩ | simp_all
  case escapeIntermediate =>
    unfold eventEscapeIntermediate escDispatch vt52EscDispatch
    rw [h.ansi hxy]
    dsimp only
    split_ifs <;> first | exact ⟨by rfl, h.act _ hxy⟩ | exact ⟨by rfl, hxy⟩
  all_goals
    simp only [eventGround, eventCsiEntry, eventCsiIntermediate, eventCsiIgnore, eventCsiParam,
      eventCsiSubParam, eventOscParam, eventOscString, eventSs3Entry, eventSs3Param, eventVt52Param,
      eventDcsEntry, eventDcsIntermediate, eventDcsParam, oscDispatch, ss3Dispatch, vt52EscDispatch,
      Engine.send]
    (try split_ifs) <;>
      first
        | exact ⟨by rfl, h.act _ hxy⟩
        | exact ⟨by rfl, hxy⟩
        | exact hcsi
        | exact hdcs

/-- A plain character does the same. -/
theorem same_processPlain (wch : WChar) {r r' : Run σ} (hr : Same R r r') :
    Same R (processPlain e wch r) (processPlain e wch r') := by
  have hint := same_actionInterrupt h hr
  unfold processPlain
  rw [hr.1]
  split_ifs
  · exact ⟨congrArg (fun m => m.enterClear .escape) hint.1, hint.2⟩
  · exact same_event h wch hr

/-- So does any character. -/
theorem same_processCharacter (wch : WChar) {r r' : Run σ} (hr : Same R r r') :
    Same R (processCharacter e wch r) (processCharacter e wch r') := by
  unfold processCharacter
  rw [h.acceptC1 hr.2]
  split_ifs
  · have hsend := same_send h (.execute wch) (same_actionInterrupt h hr)
    exact ⟨congrArg (fun m => m.enter .ground) hsend.1, hsend.2⟩
  · exact same_processPlain h _ (same_processPlain h _ hr)
  · exact hr
  · exact same_processPlain h wch hr

/-- Also one that stands alone. -/
theorem same_processOne (wch : WChar) {r r' : Run σ} (hr : Same R r r') :
    Same R (processOne e wch r) (processOne e wch r') := by
  unfold processOne
  rw [hr.1]
  split_ifs
  · exact same_send h _ hr
  · exact same_processCharacter h wch hr

/-- So does a string of them. -/
theorem same_foldl (s : WString) {r r' : Run σ} (hr : Same R r r') :
    Same R (s.foldl (fun r wch => processOne e wch r) r)
      (s.foldl (fun r wch => processOne e wch r) r') := by
  induction s generalizing r r' with
  | nil => exact hr
  | cons wch s ih => exact ih (same_processOne h wch hr)

end Character

/-! ### Strings -/

/-- One character after the other. -/
def processAll (e : Engine σ) (s : WString) (r : Run σ) : Run σ :=
  s.foldl (fun r wch => processOne e wch r) r

/-- Characters are processed one by one. -/
theorem processAll_append (s t : WString) (r : Run σ) :
    processAll e (s ++ t) r = processAll e t (processAll e s r) := List.foldl_append

/-- A run is printed in one go, or character by character. -/
theorem same_printString (h : e.Indifferent R) {s : WString} (hs : s ≠ [])
    (hplain : ∀ c ∈ s, isActionableFromGround c = false) {r : Run σ} (hr : r.1.state = .ground) :
    Same R (e.send (.printString s) r) (processAll e s r) := by
  induction s generalizing r with
  | nil => exact absurd rfl hs
  | cons c s ih =>
      have hone : processOne e c r = e.send (.printString [c]) r :=
        if_pos ⟨hr, hplain c List.mem_cons_self⟩
      unfold processAll
      rw [List.foldl_cons, hone]
      by_cases hnil : s = []
      · subst hnil
        exact Same.rfl h _
      · have hcut : Same R (e.send (.printString (c :: s)) r)
            (e.send (.printString s) (e.send (.printString [c]) r)) :=
          ⟨rfl, h.printString [c] s r.2 (List.cons_ne_nil _ _) hnil⟩
        exact Same.trans h hcut
          (ih hnil (fun d hd => hplain d (List.mem_cons_of_mem _ hd)) hr)

/-- The inner loop takes some of the characters, one after the other. It stops in the ground state
or at the end. -/
theorem vtLoop_spec (s : WString) {r : Run σ}
    (hr : r.1.state ≠ .ground ∨ ∀ c, s.head? = some c → isActionableFromGround c = true) :
    ∃ taken, s = taken ++ (vtLoop e s r).1 ∧ (vtLoop e s r).2 = processAll e taken r ∧
      ((vtLoop e s r).1 = [] ∨ (vtLoop e s r).2.1.state = .ground) := by
  induction s generalizing r with
  | nil => exact ⟨[], rfl, rfl, Or.inl rfl⟩
  | cons c s ih =>
      have hone : processOne e c r = processCharacter e c r := by
        refine if_neg fun hplain => ?_
        rcases hr with hstate | hactionable
        · exact hstate hplain.1
        · rw [hactionable c rfl] at hplain
          exact Bool.true_eq_false.mp hplain.2
      rw [vtLoop]
      split_ifs with hground
      · exact ⟨[c], rfl, hone.symm, Or.inr hground⟩
      · obtain ⟨taken, hs, hloop, hend⟩ := ih (Or.inl hground)
        refine ⟨c :: taken, by rw [List.cons_append, ← hs], ?_, hend⟩
        rw [hloop, ← hone]
        rfl

/-- The loop on runs does as much as one on characters. -/
theorem groundLoop_same (h : e.Indifferent R) (s : WString) (r : Run σ)
    (hr : s = [] ∨ r.1.state = .ground) : Same R (groundLoop e s r) (processAll e s r) := by
  induction hn : s.length using Nat.strong_induction_on generalizing s r with
  | _ n ih =>
    cases s with
    | nil =>
        rw [groundLoop]
        exact Same.rfl h r
    | cons c s =>
        have hground : r.1.state = .ground := hr.resolve_left (List.cons_ne_nil c s)
        rw [groundLoop]
        set run := (c :: s).takeWhile fun c => !isActionableFromGround c with hrun
        set rest := (c :: s).dropWhile fun c => !isActionableFromGround c with hrest
        have hsplit : run ++ rest = c :: s := List.takeWhile_append_dropWhile
        have hplain : ∀ d ∈ run, isActionableFromGround d = false := by
          intro d hd
          have := List.mem_takeWhile_imp hd
          simpa using this
        -- the run
        have hprint : Same R (if run = [] then r else e.send (.printString run) r)
            (processAll e run r) := by
          split_ifs with hnil
          · rw [hnil]
            exact Same.rfl h r
          · exact same_printString h hnil hplain hground
        -- the characters that follow it
        have hhead : ∀ d, rest.head? = some d → isActionableFromGround d = true := by
          intro d hd
          have := List.head?_dropWhile_not (fun c => !isActionableFromGround c) (c :: s)
          rw [← hrest, hd] at this
          simpa using this
        obtain ⟨taken, htaken, hloop, hend⟩ :=
          vtLoop_spec (e := e) rest (r := if run = [] then r else e.send (.printString run) r)
            (Or.inr hhead)
        set next := vtLoop e rest (if run = [] then r else e.send (.printString run) r)
        have hshort : next.1.length < n := hn ▸ length_vtLoop_dropWhile_lt e c s _
        have hrec := ih next.1.length hshort next.1 next.2 hend rfl
        refine Same.trans h hrec ?_
        rw [hloop, ← hsplit, htaken, ← processAll_append, processAll_append run]
        exact same_foldl h _ hprint

/-- **The loops take one character after the other.** -/
theorem processString_same (h : e.Indifferent R) (s : WString) (r : Run σ) :
    Same R (processString e s r) (processAll e s r) := by
  unfold processString
  split_ifs with hstate
  · obtain ⟨taken, htaken, hloop, hend⟩ := vtLoop_spec (e := e) s (r := r) (Or.inl hstate)
    have hrest := groundLoop_same h (vtLoop e s r).1 (vtLoop e s r).2 hend
    rwa [hloop, ← processAll_append, ← htaken, ← hloop] at hrest
  · exact groundLoop_same h s r (Or.inr (not_not.mp hstate))

/-- A string does the same from the same states. -/
theorem same_processString (h : e.Indifferent R) (s : WString) {r r' : Run σ} (hr : Same R r r') :
    Same R (processString e s r) (processString e s r') :=
  Same.trans h (processString_same h s r)
    (Same.trans h (same_foldl h s hr) (Same.symm h (processString_same h s r')))

/-- **Where the output is cut does not matter.** -/
theorem processString_flatten (h : e.Indifferent R) (pieces : List WString) (r : Run σ) :
    Same R (pieces.foldl (fun r s => processString e s r) r)
      (processString e pieces.flatten r) := by
  refine Same.trans h ?_ (Same.symm h (processString_same h _ r))
  induction pieces generalizing r with
  | nil => exact Same.rfl h r
  | cons s pieces ih =>
      rw [List.foldl_cons, List.flatten_cons, processAll_append]
      exact Same.trans h (ih _) (same_foldl h _ (processString_same h s r))

/-! ### What is asked of the engine -/

/-- The engine's state is the list of what it was asked to do, and a run is as many characters. The
modes do not change, no data is wanted, and there are no macros. -/
def traceEngine (acceptC1 : Bool) : Engine (List Action) where
  act
    | .printString s, x => x ++ s.map .print
    | a, x => x ++ [a]
  dcsDispatch := fun _ _ x => (x, false)
  dcsString := fun _ x => (x, false)
  csiComplete := id
  acceptC1 := fun _ => acceptC1
  ansi := fun _ => true

/-- The engine that traces is indifferent to the cut. -/
theorem traceEngine_indifferent (acceptC1 : Bool) : (traceEngine acceptC1).Indifferent Eq where
  equivalence := eq_equivalence
  act := fun a h => by rw [h]
  dcsDispatch := fun _ _ h => ⟨h, rfl⟩
  dcsString := fun _ h => ⟨h, rfl⟩
  csiComplete := fun _ h => ⟨rfl, h⟩
  acceptC1 := fun _ => rfl
  ansi := fun _ => rfl
  printString := fun s t x _ _ => by simp [traceEngine]

/-- A sequence that is cut in the middle, between two words. -/
theorem processString_flatten_colour :
    Same Eq
      ([L "one" ++ [asciiESC], L "[3", L "1mtwo"].foldl
        (fun r s => processString (traceEngine false) s r) ({}, []))
      (processString (traceEngine false) [L "one" ++ [asciiESC], L "[3", L "1mtwo"].flatten
        ({}, [])) :=
  processString_flatten (traceEngine_indifferent false) _ _

end Axan.VtParser
