import Sok.Strings.Representation

/-!
# Histories of calls

What `mstd::string` is for: each object stands for a sequence of characters, and a call
does to the sequences what `Call.Means` says.  A call on well-formed objects is correct, which
includes that it leaves well-formed objects behind, exactly when it stays in bounds; and so a
whole history is.

## Strategy

Both directions are about one call, by the cases of the calls.  In bounds, the lemma about
the member function gives an object that holds the right characters
(`correct_of_inBounds`); out of bounds, it gives the null pointer that is followed, or the
buffer without characters that `npos + 1` makes, and the call is not correct
(`inBounds_of_correct`).  A correct call leaves good objects behind, so a history is an
induction in which the two guards permit the same steps (`permits_correct_iff`).
-/

namespace Sok.Mstd

open Transition (System)

/-! ## What the calls are for -/

/-- What a call that returns makes of the sequences of characters. -/
def Call.Means (strings : List Bytes) : Call → List Bytes → Prop
  | .construct, after => after = strings ++ [[]]
  | .constructChars s, after => after = strings ++ [s.chars]
  | .copyConstruct other, after => ∃ value ∈ strings[other]?, after = strings ++ [value]
  | .moveConstruct other, after =>
      ∃ value ∈ strings[other]?, after = strings.set other [] ++ [value]
  | .copyAssign target other, after =>
      ∃ value ∈ strings[other]?, after = strings.set target value
  | .moveAssign target other, after =>
      ∃ value ∈ strings[other]?,
        after = if target = other then strings else (strings.set other []).set target value
  | .reserve _ _, after => after = strings
  | .resize target newSize, after =>
      ∃ value ∈ strings[target]?, ∃ resized : Bytes, after = strings.set target resized ∧
        value.take newSize.toNat <+: resized ∧ resized.length = newSize.toNat
  | .substr other pos len, after =>
      ∃ value ∈ strings[other]?, pos.toNat ≤ value.length ∧
        after = strings ++
          [(value.drop pos.toNat).take (min len.toNat (value.length - pos.toNat))]

/-- A request beyond the size of any object. -/
def Call.AsksTooMuch : Call → Prop
  | .reserve _ newCapacity => 0x7FFFFFFFFFFFFFFF ≤ newCapacity.toNat
  | .resize _ newSize => 0x7FFFFFFFFFFFFFFF ≤ newSize.toNat
  | _ => False

/-- A position behind the end. -/
def Call.BehindEnd (objects : List String) : Call → Prop
  | .substr other pos _ => ∃ source ∈ objects[other]?, source.size < pos
  | _ => False

/-- An outcome is the one that is asked for: it returns with `Good` objects that stand for the
right sequences, or throws for a reason. -/
def Outcome.Correct (Good : String → Prop) (objects : List String) (label : Call × Bool) :
    Outcome → Prop
  | .returns after =>
      (∀ object ∈ after, Good object) ∧
        label.1.Means (objects.map String.chars) (after.map String.chars)
  | .throws .badAlloc => label.2 = false ∨ label.1.AsksTooMuch
  | .throws (.outOfRange _) => label.1.BehindEnd objects
  | .terminates => label.2 = false
  | .undefined => False

/-- A call on the objects is correct. -/
def Correct (Good : String → Prop) (objects : List String) (label : Call × Bool) : Prop :=
  ∀ outcome ∈ label.1.outcome objects label.2, outcome.Correct Good objects label

/-! ## Bounds -/

/-- The call stays within the buffers.  Where memory is not granted, a call that needs some has
not touched any. -/
def InBounds (objects : List String) (label : Call × Bool) : Prop :=
  match label.1 with
  | .copyConstruct other => label.2 = true → ∀ source ∈ objects[other]?, HasBuffer source
  | .copyAssign target other =>
      label.2 = true → ∀ _ ∈ objects[target]?, ∀ source ∈ objects[other]?,
        target ≠ other → HasBuffer source
  | .reserve target newCapacity => label.2 = true → ∀ _ ∈ objects[target]?, newCapacity ≠ npos
  | .resize target newSize =>
      ∀ object ∈ objects[target]?,
        (newSize = 0 → HasBuffer object) ∧ (label.2 = true → newSize ≠ npos)
  | .substr other pos len =>
      ∀ source ∈ objects[other]?, ¬ source.size < pos → 0 < stdMin len (source.size - pos)
  | _ => True

/-- The call leaves no object without a buffer behind; where an object does not exist, there is no
call. -/
def KeepsBuffers (objects : List String) : Call → Prop
  | .construct => False
  | .moveConstruct other => objects.length ≤ other
  | .moveAssign target other =>
      target = other ∨ objects.length ≤ target ∨ objects.length ≤ other
  | _ => True

/-- A well-formed object with its characters in a buffer. -/
def Terminated (s : String) : Prop :=
  Formed s ∧ HasBuffer s

/-- The one or the other. -/
def Good (strict : Prop) (s : String) : Prop :=
  Formed s ∧ (strict → HasBuffer s)

theorem good_false : Good False = Formed := by
  funext s
  simp [Good]

theorem good_true : Good True = Terminated := by
  funext s
  simp [Good, Terminated]

/-! ## One call -/

variable {strict : Prop} {objects : List String}

theorem chars_mem {index : ℕ} {object : String} (h : objects[index]? = some object) :
    object.chars ∈ (objects.map String.chars)[index]? := by
  rw [List.getElem?_map, h]
  rfl

theorem set_chars_self {index : ℕ} {object : String} (h : objects[index]? = some object) :
    (objects.map String.chars).set index object.chars = objects.map String.chars := by
  obtain ⟨hlt, heq⟩ := List.getElem?_eq_some_iff.mp (chars_mem h)
  rw [← heq, List.set_getElem_self]

theorem good_append {object : String} (hobjects : ∀ other ∈ objects, Good strict other)
    (hobject : Good strict object) : ∀ other ∈ objects ++ [object], Good strict other := by
  intro other hother
  rcases List.mem_append.mp hother with hold | hnew
  · exact hobjects other hold
  · exact List.mem_singleton.mp hnew ▸ hobject

theorem correct_append {label : Call × Bool} {object : String}
    (hobjects : ∀ other ∈ objects, Good strict other) (hobject : Good strict object)
    (hmeans : label.1.Means (objects.map String.chars)
      (objects.map String.chars ++ [object.chars])) :
    (Outcome.returns (objects ++ [object])).Correct (Good strict) objects label :=
  ⟨good_append hobjects hobject, by rw [List.map_append]; exact hmeans⟩

theorem good_set {target : ℕ} {object : String} (hobjects : ∀ other ∈ objects, Good strict other)
    (hobject : Good strict object) : ∀ other ∈ objects.set target object, Good strict other := by
  intro other hother
  rcases List.mem_or_eq_of_mem_set hother with hold | rfl
  · exact hobjects other hold
  · exact hobject

theorem correct_set {label : Call × Bool} {target : ℕ} {object : String}
    (hobjects : ∀ other ∈ objects, Good strict other) (hobject : Good strict object)
    (hmeans : label.1.Means (objects.map String.chars)
      ((objects.map String.chars).set target object.chars)) :
    (Outcome.returns (objects.set target object)).Correct (Good strict) objects label :=
  ⟨good_set hobjects hobject, by rw [List.map_set]; exact hmeans⟩

/-- Within the bounds, a call on good objects is correct. -/
theorem correct_of_inBounds {label : Call × Bool}
    (hobjects : ∀ object ∈ objects, Good strict object) (h : InBounds objects label)
    (hkeeps : strict → KeepsBuffers objects label.1) : Correct (Good strict) objects label := by
  obtain ⟨call, granted⟩ := label
  intro outcome houtcome
  cases call with
  | construct =>
      obtain rfl := Option.some.inj houtcome
      exact correct_append hobjects ⟨formed_construct, fun hstrict => (hkeeps hstrict).elim⟩ rfl
  | constructChars s =>
      obtain rfl := Option.some.inj houtcome
      cases granted with
      | false =>
          rw [String.constructChars_refused]
          exact Or.inl rfl
      | true =>
          obtain ⟨object, hobject, hformed, hbuffer, hchars⟩ := String.constructChars_granted s
          rw [hobject]
          exact correct_append hobjects ⟨hformed, fun _ => hbuffer⟩ (by rw [hchars]; rfl)
  | copyConstruct other =>
      obtain ⟨source, hsource, rfl⟩ := Option.map_eq_some_iff.mp houtcome
      have hgood := hobjects source (List.mem_of_getElem? hsource)
      cases granted with
      | false =>
          rw [String.copyConstruct_refused]
          exact Or.inl rfl
      | true =>
          obtain ⟨object, hobject, hformed, hbuffer, hchars⟩ :=
            String.copyConstruct_granted hgood.1 (h rfl source hsource)
          rw [hobject]
          exact correct_append hobjects ⟨hformed, fun _ => hbuffer⟩
            ⟨source.chars, chars_mem hsource, by rw [hchars]⟩
  | moveConstruct other =>
      obtain ⟨source, hsource, rfl⟩ := Option.map_eq_some_iff.mp houtcome
      have hgood := hobjects source (List.mem_of_getElem? hsource)
      obtain ⟨hlt, -⟩ := List.getElem?_eq_some_iff.mp hsource
      have hleft : Good strict String.construct :=
        ⟨formed_construct, fun hstrict => absurd (hkeeps hstrict) (not_le.mpr hlt)⟩
      refine ⟨good_append (good_set hobjects hleft) hgood, source.chars, chars_mem hsource, ?_⟩
      rw [List.map_append, List.map_set]
      rfl
  | copyAssign target other =>
      obtain ⟨object, hobject, houtcome⟩ := Option.bind_eq_some_iff.mp houtcome
      obtain ⟨source, hsource, rfl⟩ := Option.map_eq_some_iff.mp houtcome
      have hgood := hobjects source (List.mem_of_getElem? hsource)
      by_cases hsame : target = other
      · subst hsame
        rw [if_pos rfl]
        exact ⟨hobjects, source.chars, chars_mem hsource, (set_chars_self hsource).symm⟩
      · rw [if_neg hsame]
        cases granted with
        | false =>
            rw [String.copyAssign_eq, String.copyConstruct_refused]
            rfl
        | true =>
            obtain ⟨result, hresult, hformed, hbuffer, hchars⟩ :=
              String.copyConstruct_granted hgood.1 (h rfl object hobject source hsource hsame)
            rw [String.copyAssign_eq, hresult]
            exact correct_set hobjects ⟨hformed, fun _ => hbuffer⟩
              ⟨source.chars, chars_mem hsource, by rw [hchars]⟩
  | moveAssign target other =>
      obtain ⟨object, hobject, houtcome⟩ := Option.bind_eq_some_iff.mp houtcome
      obtain ⟨source, hsource, rfl⟩ := Option.map_eq_some_iff.mp houtcome
      have hgood := hobjects source (List.mem_of_getElem? hsource)
      by_cases hsame : target = other
      · rw [if_pos hsame]
        exact ⟨hobjects, source.chars, chars_mem hsource, (if_pos hsame).symm⟩
      · rw [if_neg hsame]
        have hleft : Good strict String.construct := by
          refine ⟨formed_construct, fun hstrict => ?_⟩
          obtain ⟨htarget, -⟩ := List.getElem?_eq_some_iff.mp hobject
          obtain ⟨hother, -⟩ := List.getElem?_eq_some_iff.mp hsource
          rcases hkeeps hstrict with hsame' | hnone | hnone
          · exact absurd hsame' hsame
          · exact absurd htarget (not_lt.mpr hnone)
          · exact absurd hother (not_lt.mpr hnone)
        refine ⟨good_set (good_set hobjects hleft) hgood, source.chars, chars_mem hsource, ?_⟩
        rw [if_neg hsame, List.map_set, List.map_set]
        rfl
  | reserve target newCapacity =>
      obtain ⟨object, hobject, rfl⟩ := Option.map_eq_some_iff.mp houtcome
      have hgood := hobjects object (List.mem_of_getElem? hobject)
      rcases String.reserve_cases hgood.1 granted (fun hgranted => h hgranted object hobject) with
        ⟨result, hresult, hformed, -, hchars, -, hbuffer⟩ | ⟨hthrows, hreason⟩
      · rw [hresult]
        refine correct_set hobjects ⟨hformed, fun hstrict => hbuffer (Or.inl (hgood.2 hstrict))⟩ ?_
        rw [hchars]
        exact set_chars_self hobject
      · rw [hthrows]
        exact hreason
  | resize target newSize =>
      obtain ⟨object, hobject, rfl⟩ := Option.map_eq_some_iff.mp houtcome
      have hgood := hobjects object (List.mem_of_getElem? hobject)
      obtain ⟨hnull, hn⟩ := h object hobject
      rcases String.resize_cases hgood.1 granted hnull hn with
        ⟨result, hresult, hformed, hbuffer, -, hchars⟩ | ⟨hthrows, hreason⟩
      · rw [hresult]
        exact correct_set hobjects ⟨hformed, fun _ => hbuffer⟩
          ⟨object.chars, chars_mem hobject, result.chars, rfl, hchars⟩
      · rw [hthrows]
        exact hreason
  | substr other pos len =>
      obtain ⟨source, hsource, rfl⟩ := Option.map_eq_some_iff.mp houtcome
      have hgood := hobjects source (List.mem_of_getElem? hsource)
      by_cases hpos : source.size < pos
      · rw [String.substr_of_lt hpos]
        exact ⟨source, hsource, hpos⟩
      · rcases String.substr_cases hgood.1 hpos (h source hsource hpos) granted with
          ⟨object, hobject, hformed, hbuffer, hle, hchars⟩ | ⟨hthrows, hgranted⟩
        · rw [hobject]
          exact correct_append hobjects ⟨hformed, fun _ => hbuffer⟩
            ⟨source.chars, chars_mem hsource, hle, by rw [hchars]⟩
        · rw [hthrows]
          exact Or.inl hgranted

/-- A buffer without characters is not well formed. -/
theorem not_formed_npos : ¬ Formed ⟨some [], 0, npos⟩ := by
  intro h
  exact absurd h.1 (by decide)

/-- Out of the bounds, it is not. -/
theorem inBounds_of_correct {label : Call × Bool}
    (hobjects : ∀ object ∈ objects, Good strict object) (h : Correct (Good strict) objects label) :
    InBounds objects label := by
  obtain ⟨call, granted⟩ := label
  have hdefined : call.outcome objects granted ≠ some .undefined := fun heq => h .undefined heq
  cases call with
  | construct => trivial
  | constructChars s => trivial
  | moveConstruct other => trivial
  | moveAssign target other => trivial
  | copyConstruct other =>
      rintro rfl source hsource
      by_contra hnone
      apply hdefined
      have hformed := (hobjects source (List.mem_of_getElem? hsource)).1
      rw [Call.outcome, hsource, Option.map_some,
        String.copyConstruct_undefined hformed hnone]
      rfl
  | copyAssign target other =>
      rintro rfl object hobject source hsource hne
      by_contra hnone
      apply hdefined
      have hformed := (hobjects source (List.mem_of_getElem? hsource)).1
      rw [Call.outcome, hobject, Option.bind_some, hsource, Option.map_some, if_neg hne,
        String.copyAssign_eq, String.copyConstruct_undefined hformed hnone]
      rfl
  | reserve target newCapacity =>
      rintro rfl object hobject rfl
      have hformed := (hobjects object (List.mem_of_getElem? hobject)).1
      rcases String.reserve_npos hformed with hundefined | hempty
      · apply hdefined
        rw [Call.outcome, hobject, Option.map_some, hundefined]
        rfl
      · -- it returns, and leaves an object that is not well formed
        have hreturns : (Call.reserve target npos).outcome objects true =
            some (.returns (objects.set target ⟨some [], 0, npos⟩)) := by
          rw [Call.outcome, hobject, Option.map_some, hempty]
          rfl
        obtain ⟨hlt, -⟩ := List.getElem?_eq_some_iff.mp hobject
        exact not_formed_npos ((h _ hreturns).1 _ (List.mem_set hlt _)).1
  | resize target newSize =>
      intro object hobject
      have hformed := (hobjects object (List.mem_of_getElem? hobject)).1
      constructor
      · rintro rfl
        by_contra hnone
        apply hdefined
        rw [Call.outcome, hobject, Option.map_some, String.resize_undefined hformed hnone]
        rfl
      · rintro rfl rfl
        apply hdefined
        rw [Call.outcome, hobject, Option.map_some, String.resize_npos hformed]
        rfl
  | substr other pos len =>
      intro source hsource hpos
      by_contra hempty
      apply hdefined
      rw [Call.outcome, hsource, Option.map_some, String.substr_undefined hpos hempty]
      rfl

theorem not_hasBuffer_construct : ¬ HasBuffer String.construct := by
  simp [HasBuffer, String.construct]

/-- An object without a buffer is not left behind by a call whose objects all have one. -/
theorem keepsBuffers_of_correct {label : Call × Bool} (h : Correct (Good strict) objects label)
    (hstrict : strict) : KeepsBuffers objects label.1 := by
  obtain ⟨call, granted⟩ := label
  have hnone : ∀ after, call.outcome objects granted = some (.returns after) →
      String.construct ∉ after := fun after hreturns hmem =>
    not_hasBuffer_construct (((h _ hreturns).1 _ hmem).2 hstrict)
  cases call with
  | construct => exact hnone _ rfl (by simp)
  | moveConstruct other =>
      by_contra hmoves
      have hother : other < objects.length := not_le.mp hmoves
      refine hnone (objects.set other .construct ++ [objects[other]]) ?_ ?_
      · rw [Call.outcome, List.getElem?_eq_getElem hother]
        rfl
      · exact List.mem_append_left _ (List.mem_set hother _)
  | moveAssign target other =>
      by_contra hmoves
      obtain ⟨hne, htarget, hother⟩ : target ≠ other ∧ target < objects.length ∧
          other < objects.length := by
        simpa [KeepsBuffers, not_or] using hmoves
      refine hnone ((objects.set other .construct).set target objects[other]) ?_ ?_
      · rw [Call.outcome, List.getElem?_eq_getElem htarget, Option.bind_some,
          List.getElem?_eq_getElem hother, Option.map_some, if_neg hne]
        rfl
      · rw [List.set_comm _ _ hne.symm]
        exact List.mem_set (by rwa [List.length_set]) _
  | constructChars s => trivial
  | copyConstruct other => trivial
  | copyAssign target other => trivial
  | reserve target newCapacity => trivial
  | resize target newSize => trivial
  | substr other pos len => trivial

theorem correct_iff {label : Call × Bool} (hobjects : ∀ object ∈ objects, Good strict object) :
    Correct (Good strict) objects label ↔
      InBounds objects label ∧ (strict → KeepsBuffers objects label.1) :=
  ⟨fun h => ⟨inBounds_of_correct hobjects h, keepsBuffers_of_correct h⟩,
    fun h => correct_of_inBounds hobjects h.1 h.2⟩

theorem Correct.step {label : Call × Bool} {next : List String}
    (h : Correct (Good strict) objects label) (hstep : system.step objects label = some next)
    (hobjects : ∀ object ∈ objects, Good strict object) : ∀ object ∈ next, Good strict object := by
  obtain ⟨outcome, houtcome, hafter⟩ := Option.bind_eq_some_iff.mp hstep
  have hcorrect := h outcome houtcome
  cases outcome with
  | returns after =>
      obtain rfl := Option.some.inj hafter
      exact hcorrect.1
  | throws exception =>
      obtain rfl := Option.some.inj hafter
      exact hobjects
  | terminates => exact absurd hafter (by simp [Outcome.objectsAfter])
  | undefined => exact hcorrect.elim

/-! ## Whole histories -/

/-- Every call of a history is correct. -/
def Safe (IsGood : String → Prop) (calls : List (Call × Bool)) : Prop :=
  system.Permits (Correct IsGood) [] calls

theorem permits_correct_iff (calls : List (Call × Bool))
    (hobjects : ∀ object ∈ objects, Good strict object) :
    system.Permits (Correct (Good strict)) objects calls ↔
      system.Permits (fun objects label =>
        InBounds objects label ∧ (strict → KeepsBuffers objects label.1)) objects calls := by
  induction calls generalizing objects with
  | nil => exact Iff.rfl
  | cons label calls ih =>
      refine ⟨fun h => ⟨(correct_iff hobjects).mp h.1, fun next hnext => ?_⟩,
        fun h => ⟨(correct_iff hobjects).mpr h.1, fun next hnext => ?_⟩⟩
      · exact (ih (h.1.step hnext hobjects)).mp (h.2 next hnext)
      · have hcorrect := (correct_iff hobjects).mpr h.1
        exact (ih (hcorrect.step hnext hobjects)).mpr (h.2 next hnext)

/-- **A history is safe exactly when each of its calls stays in bounds**; and there is a
terminated buffer in every object exactly when, besides, no call leaves an object without one. -/
theorem safe_iff (calls : List (Call × Bool)) :
    (Safe Formed calls ↔ system.Permits InBounds [] calls) ∧
      (Safe Terminated calls ↔ system.Permits (fun objects label =>
        InBounds objects label ∧ KeepsBuffers objects label.1) [] calls) := by
  have hnone : ∀ strict, ∀ object ∈ ([] : List String), Good strict object := by simp
  have hformed := permits_correct_iff calls (hnone False)
  have hterminated := permits_correct_iff calls (hnone True)
  simp only [false_implies, and_true, good_false] at hformed
  simp only [true_implies, good_true] at hterminated
  exact ⟨hformed, hterminated⟩

/-- `mstd::string("abc")`. -/
def abc : CString := ⟨ascii "abc", by decide, by decide⟩

/-- The empty slice of a string is made with a write through a null pointer. -/
theorem empty_slice_undefined : ¬ ∀ calls, Safe Formed calls := by
  intro hsafe
  obtain ⟨-, hrest⟩ := hsafe [(.constructChars abc, true), (.substr 0 0 0, true)]
  obtain ⟨hcorrect, -⟩ := hrest [⟨some (ascii "abc" ++ [0]), 3, 3⟩] rfl
  exact hcorrect .undefined rfl

end Sok.Mstd
