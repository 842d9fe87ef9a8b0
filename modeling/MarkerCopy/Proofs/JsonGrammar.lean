import Mathlib.Algebra.Field.Rat

/-! The grammar of JSON. Its relations are between a text, what is read at the beginning of it, and
the text that is left. Nothing can be read in two ways. -/

namespace MarkerCopy.Json

/-- What a JSON text says. -/
inductive Datum where
  | null
  | bool (b : Bool)
  | number (q : ℚ)
  | string (text : String)
  | array (items : List Datum)
  | object (members : List (String × Datum))

def isBlank (c : Char) : Bool :=
  c == ' ' || c == '\t' || c == '\n' || c == '\r'

def skip (text : List Char) : List Char :=
  text.dropWhile isBlank

theorem skip_blank {c : Char} (h : isBlank c) (text : List Char) : skip (c :: text) = skip text :=
  List.dropWhile_cons_of_pos h

theorem skip_cons {c : Char} (h : ¬ isBlank c) (text : List Char) : skip (c :: text) = c :: text :=
  List.dropWhile_cons_of_neg h

section Strings

/-- The character that a letter stands for after a backslash. -/
def escaped? : Char → Option Char
  | '"' => some '"'
  | '\\' => some '\\'
  | '/' => some '/'
  | 'b' => some '\x08'
  | 'f' => some '\x0c'
  | 'n' => some '\n'
  | 'r' => some '\r'
  | 't' => some '\t'
  | _ => none

def hexValue? (c : Char) : Option Nat :=
  if '0' ≤ c ∧ c ≤ '9' then some (c.toNat - '0'.toNat)
  else if 'a' ≤ c ∧ c ≤ 'f' then some (c.toNat - 'a'.toNat + 10)
  else if 'A' ≤ c ∧ c ≤ 'F' then some (c.toNat - 'A'.toNat + 10)
  else none

/-- A code unit in four hexadecimal digits. -/
inductive ReadsUnit : List Char → Nat → List Char → Prop
  | mk {a b c d : Char} {i j k l : Nat} {rest : List Char} (ha : hexValue? a = some i)
    (hb : hexValue? b = some j) (hc : hexValue? c = some k) (hd : hexValue? d = some l) :
    ReadsUnit (a :: b :: c :: d :: rest) (((i * 16 + j) * 16 + k) * 16 + l) rest

/-- A character of a string: itself, after a backslash, or by one code unit or two. -/
inductive ReadsChar : List Char → Char → List Char → Prop
  | plain {c : Char} {rest : List Char} (hquote : c ≠ '"') (hbackslash : c ≠ '\\')
    (hcontrol : 0x20 ≤ c.toNat) : ReadsChar (c :: rest) c rest
  | escape {e c : Char} {rest : List Char} (h : escaped? e = some c) :
    ReadsChar ('\\' :: e :: rest) c rest
  | unit {text rest : List Char} {n : Nat} (h : ReadsUnit text n rest) (hn : n.isValidChar) :
    ReadsChar ('\\' :: 'u' :: text) (Char.ofNat n) rest
  | pair {text next rest : List Char} {high low : Nat}
    (hhigh : ReadsUnit text high ('\\' :: 'u' :: next)) (hh : 0xD800 ≤ high ∧ high < 0xDC00)
    (hlow : ReadsUnit next low rest) (hl : 0xDC00 ≤ low ∧ low < 0xE000) :
    ReadsChar ('\\' :: 'u' :: text)
      (Char.ofNat (0x10000 + (high - 0xD800) * 0x400 + (low - 0xDC00))) rest

/-- The characters of a string up to the quote that ends it. -/
inductive ReadsChars : List Char → List Char → List Char → Prop
  | stop {rest : List Char} : ReadsChars ('"' :: rest) [] rest
  | next {text mid rest chars : List Char} {c : Char} (h : ReadsChar text c mid)
    (hs : ReadsChars mid chars rest) : ReadsChars text (c :: chars) rest

variable {text rest rest' chars chars' : List Char} {c c' : Char} {n n' : Nat}

theorem ReadsUnit.unique (h : ReadsUnit text n rest) (h' : ReadsUnit text n' rest') :
    n = n' ∧ rest = rest' := by
  cases h with
  | mk ha hb hc hd =>
    cases h' with
    | mk ha' hb' hc' hd' => simp_all

theorem ReadsChar.unique (h : ReadsChar text c rest) (h' : ReadsChar text c' rest') :
    c = c' ∧ rest = rest' := by
  have hu : escaped? 'u' = none := by decide
  cases h with
  | plain _ hbackslash _ =>
    cases h' with
    | plain => exact ⟨rfl, rfl⟩
    | escape | unit | pair => exact absurd rfl hbackslash
  | escape he =>
    cases h' with
    | plain _ hbackslash _ => exact absurd rfl hbackslash
    | escape he' => exact ⟨Option.some.inj (he.symm.trans he'), rfl⟩
    | unit | pair => cases hu.symm.trans he
  | unit hn hv =>
    cases h' with
    | plain _ hbackslash _ => exact absurd rfl hbackslash
    | escape he' => cases hu.symm.trans he'
    | unit hn' _ =>
      obtain ⟨rfl, rfl⟩ := hn.unique hn'
      exact ⟨rfl, rfl⟩
    | pair hhigh hh _ _ =>
      -- a surrogate is no character on its own
      obtain ⟨rfl, -⟩ := hn.unique hhigh
      rcases hv with hv | hv <;> omega
  | pair hhigh hh hlow _ =>
    cases h' with
    | plain _ hbackslash _ => exact absurd rfl hbackslash
    | escape he' => cases hu.symm.trans he'
    | unit hn' hv =>
      obtain ⟨rfl, -⟩ := hn'.unique hhigh
      rcases hv with hv | hv <;> omega
    | pair hhigh' _ hlow' _ =>
      obtain ⟨rfl, hnext⟩ := hhigh.unique hhigh'
      obtain rfl := (List.cons.inj (List.cons.inj hnext).2).2
      obtain ⟨rfl, rfl⟩ := hlow.unique hlow'
      exact ⟨rfl, rfl⟩

theorem ReadsChars.unique (h : ReadsChars text chars rest) (h' : ReadsChars text chars' rest') :
    chars = chars' ∧ rest = rest' := by
  induction h generalizing chars' rest' with
  | stop =>
    cases h' with
    | stop => exact ⟨rfl, rfl⟩
    | next hc _ =>
      cases hc with
      | plain hquote _ _ => exact absurd rfl hquote
  | next hc _ ih =>
    cases h' with
    | stop =>
      cases hc with
      | plain hquote _ _ => exact absurd rfl hquote
    | next hc' hs' =>
      obtain ⟨rfl, rfl⟩ := hc.unique hc'
      obtain ⟨rfl, rfl⟩ := ih hs'
      exact ⟨rfl, rfl⟩

end Strings

section Numbers

/-- All digits at the beginning of a text, of which there is at least one. -/
inductive ReadsDigits : List Char → List Char → List Char → Prop
  | mk {text : List Char} (h : text.takeWhile Char.isDigit ≠ []) :
    ReadsDigits text (text.takeWhile Char.isDigit) (text.dropWhile Char.isDigit)

/-- The digits after a decimal point, if there is one. -/
inductive ReadsFraction : List Char → List Char → List Char → Prop
  | absent {text : List Char} (h : text.head? ≠ some '.') : ReadsFraction text [] text
  | present {text digits rest : List Char} (h : ReadsDigits text digits rest) :
    ReadsFraction ('.' :: text) digits rest

def isExponentMark (c : Char) : Bool :=
  c == 'e' || c == 'E'

/-- The power of ten, which is zero if there is none. -/
inductive ReadsExponent : List Char → ℤ → List Char → Prop
  | absent {text : List Char} (h : ¬ text.head?.any isExponentMark) : ReadsExponent text 0 text
  | plain {mark : Char} {text digits rest : List Char} (hm : isExponentMark mark)
    (h : ReadsDigits text digits rest) :
    ReadsExponent (mark :: text) (Nat.ofDigitChars 10 digits 0) rest
  | plus {mark : Char} {text digits rest : List Char} (hm : isExponentMark mark)
    (h : ReadsDigits text digits rest) :
    ReadsExponent (mark :: '+' :: text) (Nat.ofDigitChars 10 digits 0) rest
  | minus {mark : Char} {text digits rest : List Char} (hm : isExponentMark mark)
    (h : ReadsDigits text digits rest) :
    ReadsExponent (mark :: '-' :: text) (-(Nat.ofDigitChars 10 digits 0)) rest

/-- A number without a sign. A zero is the first digit only if no other one precedes the point. -/
inductive ReadsMagnitude : List Char → ℚ → List Char → Prop
  | mk {text mid mid' rest whole fraction : List Char} {exponent : ℤ}
    (hw : ReadsDigits text whole mid) (hzero : whole.head? = some '0' → whole = ['0'])
    (hf : ReadsFraction mid fraction mid') (he : ReadsExponent mid' exponent rest) :
    ReadsMagnitude text
      (Nat.ofDigitChars 10 (whole ++ fraction) 0 * 10 ^ (exponent - fraction.length)) rest

inductive ReadsNumber : List Char → ℚ → List Char → Prop
  | plain {text rest : List Char} {q : ℚ} (h : ReadsMagnitude text q rest) :
    ReadsNumber text q rest
  | minus {text rest : List Char} {q : ℚ} (h : ReadsMagnitude text q rest) :
    ReadsNumber ('-' :: text) (-q) rest

variable {text rest rest' digits digits' : List Char} {e e' : ℤ} {q q' : ℚ} {c : Char}

theorem ReadsDigits.head (h : ReadsDigits (c :: text) digits rest) : c.isDigit := by
  cases h with
  | mk h =>
    by_contra hc
    exact h (by simp [hc])

theorem ReadsDigits.unique (h : ReadsDigits text digits rest)
    (h' : ReadsDigits text digits' rest') : digits = digits' ∧ rest = rest' := by
  cases h
  cases h'
  exact ⟨rfl, rfl⟩

theorem ReadsFraction.unique (h : ReadsFraction text digits rest)
    (h' : ReadsFraction text digits' rest') : digits = digits' ∧ rest = rest' := by
  cases h with
  | absent hpoint =>
    cases h' with
    | absent => exact ⟨rfl, rfl⟩
    | present => exact absurd rfl hpoint
  | present hd =>
    cases h' with
    | absent hpoint => exact absurd rfl hpoint
    | present hd' => exact hd.unique hd'

theorem ReadsExponent.unique (h : ReadsExponent text e rest) (h' : ReadsExponent text e' rest') :
    e = e' ∧ rest = rest' := by
  have hplus : ¬ '+'.isDigit := by decide
  have hminus : ¬ '-'.isDigit := by decide
  cases h with
  | absent hm =>
    cases h' with
    | absent => exact ⟨rfl, rfl⟩
    | plain hm' _ | plus hm' _ | minus hm' _ => exact absurd hm' hm
  | plain hm hd =>
    cases h' with
    | absent hm' => exact absurd hm hm'
    | plain _ hd' =>
      obtain ⟨rfl, rfl⟩ := hd.unique hd'
      exact ⟨rfl, rfl⟩
    | plus => exact absurd hd.head hplus
    | minus => exact absurd hd.head hminus
  | plus hm hd =>
    cases h' with
    | absent hm' => exact absurd hm hm'
    | plain _ hd' => exact absurd hd'.head hplus
    | plus _ hd' =>
      obtain ⟨rfl, rfl⟩ := hd.unique hd'
      exact ⟨rfl, rfl⟩
  | minus hm hd =>
    cases h' with
    | absent hm' => exact absurd hm hm'
    | plain _ hd' => exact absurd hd'.head hminus
    | minus _ hd' =>
      obtain ⟨rfl, rfl⟩ := hd.unique hd'
      exact ⟨rfl, rfl⟩

theorem ReadsMagnitude.unique (h : ReadsMagnitude text q rest) (h' : ReadsMagnitude text q' rest') :
    q = q' ∧ rest = rest' := by
  cases h with
  | mk hw _ hf he =>
    cases h' with
    | mk hw' _ hf' he' =>
      obtain ⟨rfl, rfl⟩ := hw.unique hw'
      obtain ⟨rfl, rfl⟩ := hf.unique hf'
      obtain ⟨rfl, rfl⟩ := he.unique he'
      exact ⟨rfl, rfl⟩

theorem ReadsMagnitude.head (h : ReadsMagnitude (c :: text) q rest) : c.isDigit := by
  cases h with
  | mk hw _ _ _ => exact hw.head

theorem ReadsNumber.head (h : ReadsNumber (c :: text) q rest) : c.isDigit ∨ c = '-' := by
  cases h with
  | plain h => exact .inl h.head
  | minus _ => exact .inr rfl

theorem ReadsNumber.unique (h : ReadsNumber text q rest) (h' : ReadsNumber text q' rest') :
    q = q' ∧ rest = rest' := by
  have hminus : ¬ '-'.isDigit := by decide
  cases h with
  | plain h =>
    cases h' with
    | plain h' => exact h.unique h'
    | minus => exact absurd h.head hminus
  | minus h =>
    cases h' with
    | plain h' => exact absurd h'.head hminus
    | minus h' =>
      obtain ⟨rfl, rfl⟩ := h.unique h'
      exact ⟨rfl, rfl⟩

end Numbers

mutual

inductive Reads : List Char → Datum → List Char → Prop
  | null {rest : List Char} : Reads ('n' :: 'u' :: 'l' :: 'l' :: rest) .null rest
  | yes {rest : List Char} : Reads ('t' :: 'r' :: 'u' :: 'e' :: rest) (.bool true) rest
  | no {rest : List Char} : Reads ('f' :: 'a' :: 'l' :: 's' :: 'e' :: rest) (.bool false) rest
  | number {text rest : List Char} {q : ℚ} (h : ReadsNumber text q rest) :
    Reads text (.number q) rest
  | string {text chars rest : List Char} (h : ReadsChars text chars rest) :
    Reads ('"' :: text) (.string (String.ofList chars)) rest
  | emptyArray {text rest : List Char} (h : skip text = ']' :: rest) :
    Reads ('[' :: text) (.array []) rest
  | array {text rest : List Char} {items : List Datum} (h : ReadsItems text items rest) :
    Reads ('[' :: text) (.array items) rest
  | emptyObject {text rest : List Char} (h : skip text = '\x7d' :: rest) :
    Reads ('\x7b' :: text) (.object []) rest
  | object {text rest : List Char} {members : List (String × Datum)}
    (h : ReadsMembers text members rest) : Reads ('\x7b' :: text) (.object members) rest

/-- The items of an array with commas between them, up to the bracket that ends it. -/
inductive ReadsItems : List Char → List Datum → List Char → Prop
  | last {text mid rest : List Char} {item : Datum} (h : Reads (skip text) item mid)
    (hstop : skip mid = ']' :: rest) : ReadsItems text [item] rest
  | next {text mid more rest : List Char} {item : Datum} {items : List Datum}
    (h : Reads (skip text) item mid) (hcomma : skip mid = ',' :: more)
    (hs : ReadsItems more items rest) : ReadsItems text (item :: items) rest

/-- A member of an object: its key, a colon, and its value. -/
inductive ReadsMember : List Char → String × Datum → List Char → Prop
  | mk {text key chars mid value rest : List Char} {datum : Datum}
    (hquote : skip text = '"' :: key) (hkey : ReadsChars key chars mid)
    (hcolon : skip mid = ':' :: value) (h : Reads (skip value) datum rest) :
    ReadsMember text (String.ofList chars, datum) rest

/-- The members of an object with commas between them, up to the brace that ends it. -/
inductive ReadsMembers : List Char → List (String × Datum) → List Char → Prop
  | last {text mid rest : List Char} {member : String × Datum} (h : ReadsMember text member mid)
    (hstop : skip mid = '\x7d' :: rest) : ReadsMembers text [member] rest
  | next {text mid more rest : List Char} {member : String × Datum}
    {members : List (String × Datum)} (h : ReadsMember text member mid)
    (hcomma : skip mid = ',' :: more) (hs : ReadsMembers more members rest) :
    ReadsMembers text (member :: members) rest

end

/-- Whether a whole text says something, with blanks before and after it. -/
def Denotes (text : String) (datum : Datum) : Prop :=
  ∃ rest, Reads (skip text.toList) datum rest ∧ skip rest = []

theorem not_reads_bracket {text rest : List Char} {datum : Datum} :
    ¬ Reads (']' :: text) datum rest := by
  intro h
  cases h with
  | number h => exact absurd h.head (by decide)

theorem Reads.not_isBlank {c : Char} {text rest : List Char} {datum : Datum}
    (h : Reads (c :: text) datum rest) : ¬ isBlank c := by
  cases h with
  | number h =>
    intro hc
    have hcases : ((c = ' ' ∨ c = '\t') ∨ c = '\n') ∨ c = '\r' := by simpa [isBlank] using hc
    rcases hcases with ((rfl | rfl) | rfl) | rfl <;> exact absurd h.head (by decide)
  | null | yes | no | string | emptyArray | array | emptyObject | object => decide

theorem Reads.skip_eq {text rest : List Char} {datum : Datum} (h : Reads text datum rest) :
    skip text = text := by
  cases text with
  | nil => rfl
  | cons c text => exact skip_cons h.not_isBlank text

theorem ReadsMember.skip_eq {text rest : List Char} {member : String × Datum}
    (h : ReadsMember text member rest) : ∃ key, skip text = '"' :: key := by
  cases h with
  | mk hquote _ _ _ => exact ⟨_, hquote⟩

theorem not_readsItems_of_bracket {text mid rest : List Char} {items : List Datum}
    (h : skip text = ']' :: mid) : ¬ ReadsItems text items rest := by
  intro hs
  cases hs with
  | last hr _ | next hr _ _ =>
    rw [h] at hr
    exact not_reads_bracket hr

theorem not_readsMembers_of_brace {text mid rest : List Char} {members : List (String × Datum)}
    (h : skip text = '\x7d' :: mid) : ¬ ReadsMembers text members rest := by
  intro hs
  cases hs with
  | last hm _ | next hm _ _ =>
    obtain ⟨key, hkey⟩ := hm.skip_eq
    cases hkey.symm.trans h

mutual

theorem Reads.unique {text rest rest' : List Char} {datum datum' : Datum}
    (h : Reads text datum rest) (h' : Reads text datum' rest') : datum = datum' ∧ rest = rest' := by
  match h with
  | .null =>
    cases h' with
    | null => exact ⟨rfl, rfl⟩
    | number hn => exact absurd hn.head (by decide)
  | .yes =>
    cases h' with
    | yes => exact ⟨rfl, rfl⟩
    | number hn => exact absurd hn.head (by decide)
  | .no =>
    cases h' with
    | no => exact ⟨rfl, rfl⟩
    | number hn => exact absurd hn.head (by decide)
  | .number hn =>
    cases h' with
    | number hn' =>
      obtain ⟨rfl, rfl⟩ := hn.unique hn'
      exact ⟨rfl, rfl⟩
    | null | yes | no | string | emptyArray | array | emptyObject | object =>
      exact absurd hn.head (by decide)
  | .string hs =>
    cases h' with
    | string hs' =>
      obtain ⟨rfl, rfl⟩ := hs.unique hs'
      exact ⟨rfl, rfl⟩
    | number hn => exact absurd hn.head (by decide)
  | .emptyArray hstop =>
    cases h' with
    | emptyArray hstop' => exact ⟨rfl, (List.cons.inj (hstop.symm.trans hstop')).2⟩
    | array hs => exact absurd hs (not_readsItems_of_bracket hstop)
    | number hn => exact absurd hn.head (by decide)
  | .array hs =>
    cases h' with
    | array hs' =>
      obtain ⟨rfl, rfl⟩ := hs.unique hs'
      exact ⟨rfl, rfl⟩
    | emptyArray hstop => exact absurd hs (not_readsItems_of_bracket hstop)
    | number hn => exact absurd hn.head (by decide)
  | .emptyObject hstop =>
    cases h' with
    | emptyObject hstop' => exact ⟨rfl, (List.cons.inj (hstop.symm.trans hstop')).2⟩
    | object hs => exact absurd hs (not_readsMembers_of_brace hstop)
    | number hn => exact absurd hn.head (by decide)
  | .object hs =>
    cases h' with
    | object hs' =>
      obtain ⟨rfl, rfl⟩ := hs.unique hs'
      exact ⟨rfl, rfl⟩
    | emptyObject hstop => exact absurd hs (not_readsMembers_of_brace hstop)
    | number hn => exact absurd hn.head (by decide)
termination_by structural h

theorem ReadsItems.unique {text rest rest' : List Char} {items items' : List Datum}
    (h : ReadsItems text items rest) (h' : ReadsItems text items' rest') :
    items = items' ∧ rest = rest' := by
  match h with
  | .last hr hstop =>
    cases h' with
    | last hr' hstop' =>
      obtain ⟨rfl, rfl⟩ := hr.unique hr'
      exact ⟨rfl, (List.cons.inj (hstop.symm.trans hstop')).2⟩
    | next hr' hcomma _ =>
      obtain ⟨rfl, rfl⟩ := hr.unique hr'
      cases hstop.symm.trans hcomma
  | .next hr hcomma hs =>
    cases h' with
    | last hr' hstop =>
      obtain ⟨rfl, rfl⟩ := hr.unique hr'
      cases hstop.symm.trans hcomma
    | next hr' hcomma' hs' =>
      obtain ⟨rfl, rfl⟩ := hr.unique hr'
      obtain rfl := (List.cons.inj (hcomma.symm.trans hcomma')).2
      obtain ⟨rfl, rfl⟩ := hs.unique hs'
      exact ⟨rfl, rfl⟩
termination_by structural h

theorem ReadsMember.unique {text rest rest' : List Char} {member member' : String × Datum}
    (h : ReadsMember text member rest) (h' : ReadsMember text member' rest') :
    member = member' ∧ rest = rest' := by
  match h with
  | .mk hquote hkey hcolon hr =>
    cases h' with
    | mk hquote' hkey' hcolon' hr' =>
      obtain rfl := (List.cons.inj (hquote.symm.trans hquote')).2
      obtain ⟨rfl, rfl⟩ := hkey.unique hkey'
      obtain rfl := (List.cons.inj (hcolon.symm.trans hcolon')).2
      obtain ⟨rfl, rfl⟩ := hr.unique hr'
      exact ⟨rfl, rfl⟩
termination_by structural h

theorem ReadsMembers.unique {text rest rest' : List Char}
    {members members' : List (String × Datum)} (h : ReadsMembers text members rest)
    (h' : ReadsMembers text members' rest') : members = members' ∧ rest = rest' := by
  match h with
  | .last hm hstop =>
    cases h' with
    | last hm' hstop' =>
      obtain ⟨rfl, rfl⟩ := hm.unique hm'
      exact ⟨rfl, (List.cons.inj (hstop.symm.trans hstop')).2⟩
    | next hm' hcomma _ =>
      obtain ⟨rfl, rfl⟩ := hm.unique hm'
      cases hstop.symm.trans hcomma
  | .next hm hcomma hs =>
    cases h' with
    | last hm' hstop =>
      obtain ⟨rfl, rfl⟩ := hm.unique hm'
      cases hstop.symm.trans hcomma
    | next hm' hcomma' hs' =>
      obtain ⟨rfl, rfl⟩ := hm.unique hm'
      obtain rfl := (List.cons.inj (hcomma.symm.trans hcomma')).2
      obtain ⟨rfl, rfl⟩ := hs.unique hs'
      exact ⟨rfl, rfl⟩
termination_by structural h

end

/-- A text says one thing at most. -/
theorem Denotes.unique {text : String} {datum datum' : Datum} (h : Denotes text datum)
    (h' : Denotes text datum') : datum = datum' := by
  obtain ⟨rest, hr, -⟩ := h
  obtain ⟨rest', hr', -⟩ := h'
  exact (hr.unique hr').1

end MarkerCopy.Json
