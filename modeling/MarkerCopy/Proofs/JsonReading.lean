import MarkerCopy.Proofs.JsonGrammar
import MarkerCopy.Text.Json

/-! What is written as JSON reads as what it was written for, so nothing is lost in it. -/

namespace MarkerCopy.Json

section Strings

theorem hexValue?_hexDigit {n : Nat} (h : n < 16) : hexValue? (hexDigit n) = some n := by
  have hall : ∀ n < 16, hexValue? (hexDigit n) = some n := by decide
  exact hall n h

theorem readsChar_escapeChar (c : Char) (rest : List Char) :
    ReadsChar (escapeChar c ++ rest) c rest := by
  unfold escapeChar
  -- seven characters have an escape of their own
  iterate 7
    split
    · next h =>
      subst h
      exact .escape rfl
  split
  · next h =>
    have hunit : ReadsUnit ('0' :: '0' :: hexDigit (c.toNat / 16) :: hexDigit (c.toNat % 16) :: rest)
        (((0 * 16 + 0) * 16 + c.toNat / 16) * 16 + c.toNat % 16) rest :=
      .mk (by decide) (by decide) (hexValue?_hexDigit (by omega)) (hexValue?_hexDigit (by omega))
    have hcode : ((0 * 16 + 0) * 16 + c.toNat / 16) * 16 + c.toNat % 16 = c.toNat := by omega
    rw [hcode] at hunit
    have hread := ReadsChar.unit hunit (.inl (by omega))
    rwa [Char.ofNat_toNat] at hread
  · next hquote hbackslash _ _ _ _ _ hcontrol =>
    exact .plain hquote hbackslash (by omega)

theorem readsChars_escaped (chars rest : List Char) :
    ReadsChars (chars.flatMap escapeChar ++ '"' :: rest) chars rest := by
  induction chars with
  | nil => exact .stop
  | cons c chars ih =>
    rw [List.flatMap_cons, List.append_assoc]
    exact .next (readsChar_escapeChar c _) ih

end Strings

section Numbers

variable {rest : List Char}

/-- Whether a number that comes before a text ends where the text begins. -/
def EndsNumber (rest : List Char) : Prop :=
  ∀ c ∈ rest.head?, ¬ c.isDigit ∧ c ≠ '.' ∧ ¬ isExponentMark c

theorem head?_toDigits (n : Nat) (h : (Nat.toDigits 10 n).head? = some '0') : n = 0 := by
  induction n using Nat.strongRecOn with
  | ind n ih =>
    rw [Nat.toDigits_eq_if (by decide)] at h
    split at h
    · next hlt =>
      have hall : ∀ n < 10, [Nat.digitChar n].head? = some '0' → n = 0 := by decide
      exact hall n hlt h
    · have hhead : (Nat.toDigits 10 (n / 10)).head? = some '0' := by
        obtain ⟨c, digits, hc⟩ := List.exists_cons_of_ne_nil Nat.toDigits_ne_nil
        rw [hc] at h ⊢
        exact h
      have hzero := ih (n / 10) (by omega) hhead
      omega

theorem readsDigits_append {digits : List Char} (hne : digits ≠ [])
    (hd : ∀ c ∈ digits, c.isDigit) (hr : EndsNumber rest) :
    ReadsDigits (digits ++ rest) digits rest := by
  have hstop : rest.takeWhile Char.isDigit = [] ∧ rest.dropWhile Char.isDigit = rest := by
    cases rest with
    | nil => exact ⟨rfl, rfl⟩
    | cons c rest =>
      have hc := (hr c rfl).1
      exact ⟨List.takeWhile_cons_of_neg hc, List.dropWhile_cons_of_neg hc⟩
  have htake : (digits ++ rest).takeWhile Char.isDigit = digits := by
    rw [List.takeWhile_append_of_pos hd, hstop.1, List.append_nil]
  have hdrop : (digits ++ rest).dropWhile Char.isDigit = rest := by
    rw [List.dropWhile_append_of_pos hd, hstop.2]
  have h : ReadsDigits (digits ++ rest) _ _ := .mk (by rwa [htake])
  rwa [htake, hdrop] at h

theorem readsNumber_toDigits (n : Nat) (hr : EndsNumber rest) :
    ReadsNumber (Nat.toDigits 10 n ++ rest) n rest := by
  have hdigits : ReadsDigits (Nat.toDigits 10 n ++ rest) (Nat.toDigits 10 n) rest :=
    readsDigits_append Nat.toDigits_ne_nil
      (fun c hc => Nat.isDigit_of_mem_toDigits (by decide) (by decide) hc) hr
  have hzero : (Nat.toDigits 10 n).head? = some '0' → Nat.toDigits 10 n = ['0'] := by
    intro h
    rw [head?_toDigits n h]
    rfl
  have hpoint : rest.head? ≠ some '.' := fun h => (hr '.' h).2.1 rfl
  have hmark : ¬ rest.head?.any isExponentMark := by
    cases rest with
    | nil => simp
    | cons c rest => exact (hr c rfl).2.2
  have hread := ReadsMagnitude.mk hdigits hzero (.absent hpoint) (.absent hmark)
  have hvalue : (Nat.ofDigitChars 10 (Nat.toDigits 10 n ++ []) 0 : ℚ) *
      10 ^ ((0 : ℤ) - ([] : List Char).length) = n := by
    rw [List.append_nil, Nat.ofDigitChars_toDigits (by decide) (by decide)]
    simp
  rw [hvalue] at hread
  exact .plain hread

end Numbers

section Objects

variable {rest : List Char}

def Value.datum : Value → Datum
  | .string text => .string text
  | .bool b => .bool b
  | .number n => .number n

def member (field : String × Value) : String × Datum :=
  (field.1, field.2.datum)

theorem member_injective : Function.Injective member := by
  rintro ⟨key, value⟩ ⟨key', value'⟩ h
  obtain ⟨rfl, hvalue⟩ := Prod.mk.inj h
  cases value <;> cases value' <;> simp_all [Value.datum]

theorem reads_renderString (text : String) (rest : List Char) :
    ∃ chars, renderString text ++ rest = '"' :: chars ∧ ReadsChars chars text.toList rest := by
  refine ⟨_, ?_, readsChars_escaped text.toList rest⟩
  simp [renderString]

theorem reads_render (value : Value) (hr : EndsNumber rest) :
    Reads (value.render ++ rest) value.datum rest := by
  cases value with
  | string text =>
    obtain ⟨chars, htext, hread⟩ := reads_renderString text rest
    rw [Value.render, htext, Value.datum, ← String.ofList_toList (s := text)]
    exact .string hread
  | bool b =>
    cases b with
    | true => exact .yes
    | false => exact .no
  | number n => exact .number (readsNumber_toDigits n hr)

theorem readsMember_renderField (field : String × Value) (hr : EndsNumber rest) :
    ReadsMember ('\n' :: (renderField field ++ rest)) (member field) rest := by
  obtain ⟨key, value⟩ := field
  have hread := reads_render value hr
  obtain ⟨chars, hkey, hchars⟩ := reads_renderString key (':' :: ' ' :: (value.render ++ rest))
  have hquote : skip ('\n' :: (renderField (key, value) ++ rest)) = '"' :: chars := by
    have htext : renderField (key, value) ++ rest = ' ' :: ' ' :: '"' :: chars := by
      simp [renderField, ← hkey]
    rw [htext]
    simp (disch := decide) only [skip_blank, skip_cons]
  have hcolon : skip (':' :: ' ' :: (value.render ++ rest)) = ':' :: ' ' :: (value.render ++ rest) :=
    skip_cons (by decide) _
  have hvalue : skip (' ' :: (value.render ++ rest)) = value.render ++ rest := by
    rw [skip_blank (by decide), hread.skip_eq]
  have hmember := ReadsMember.mk hquote hchars hcolon (by rwa [hvalue])
  rwa [String.ofList_toList] at hmember

theorem endsNumber_cons {c : Char} (h : ¬ c.isDigit ∧ c ≠ '.' ∧ ¬ isExponentMark c)
    (text : List Char) : EndsNumber (c :: text) := by
  intro d hd
  obtain rfl : c = d := Option.some.inj hd
  exact h

theorem readsMembers_renderFields (field : String × Value) (fields : Fields) (rest : List Char) :
    ReadsMembers ('\n' :: (renderFields (field :: fields) ++ '\n' :: '\x7d' :: rest))
      ((field :: fields).map member) rest := by
  induction fields generalizing field with
  | nil =>
    have hend := endsNumber_cons (c := '\n') (by decide) ('\x7d' :: rest)
    exact .last (readsMember_renderField field hend) rfl
  | cons next fields ih =>
    have hend := endsNumber_cons (c := ',') (by decide)
      ('\n' :: (renderFields (next :: fields) ++ '\n' :: '\x7d' :: rest))
    have htext : renderFields (field :: next :: fields) ++ '\n' :: '\x7d' :: rest =
        renderField field ++
          ',' :: '\n' :: (renderFields (next :: fields) ++ '\n' :: '\x7d' :: rest) := by
      simp [renderFields]
    rw [htext]
    exact .next (readsMember_renderField field hend) rfl (ih next)

/-- A written object says what its fields are, and nothing else. -/
theorem denotes_renderObject_iff {fields : Fields} {datum : Datum} :
    Denotes (renderObject fields) datum ↔ datum = .object (fields.map member) := by
  have hdenotes : Denotes (renderObject fields) (.object (fields.map member)) := by
    refine ⟨[], ?_, rfl⟩
    rw [renderObject, String.toList_ofList]
    cases fields with
    | nil => exact .emptyObject rfl
    | cons field fields => exact .object (readsMembers_renderFields field fields [])
  constructor
  · exact fun h => h.unique hdenotes
  · rintro rfl
    exact hdenotes

theorem renderObject_injective : Function.Injective renderObject := by
  intro fields fields' h
  have hdenotes := denotes_renderObject_iff.mpr (Eq.refl (Datum.object (fields.map member)))
  rw [h, denotes_renderObject_iff, Datum.object.injEq] at hdenotes
  exact (List.map_inj_right fun _ _ he => member_injective he).mp hdenotes

theorem renderFields_append {fields more : Fields} (hf : fields ≠ []) (hm : more ≠ []) :
    renderFields (fields ++ more) = renderFields fields ++ ',' :: '\n' :: renderFields more := by
  induction fields with
  | nil => exact absurd rfl hf
  | cons field fields ih =>
    cases fields with
    | nil =>
      cases more with
      | nil => exact absurd rfl hm
      | cons next more => rfl
    | cons next fields =>
      have htail := ih (List.cons_ne_nil next fields)
      rw [List.cons_append, List.cons_append, renderFields, ← List.cons_append, htail]
      simp [renderFields]

/-- The text of an object with more fields goes on from where that of the others is closed. -/
theorem exists_renderObject_append {fields more : Fields} (hf : fields ≠ []) (hm : more ≠ []) :
    ∃ start, renderObject fields = start ++ "\n\x7d" ∧
      renderObject (fields ++ more) =
        start ++ (",\n" ++ String.ofList (renderFields more)) ++ "\n\x7d" := by
  refine ⟨String.ofList ('\x7b' :: '\n' :: renderFields fields), ?_, ?_⟩
  · refine String.toList_inj.mp ?_
    simp [renderObject]
  · refine String.toList_inj.mp ?_
    simp [renderObject, renderFields_append hf hm]

end Objects

end MarkerCopy.Json
