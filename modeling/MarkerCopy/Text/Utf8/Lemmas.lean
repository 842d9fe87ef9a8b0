import MarkerCopy.Text.Utf8.Basic

/-! Reading undoes writing, and only what is written can be read as text. -/

namespace MarkerCopy.Utf8

theorem ofNat_lt_iff {n : Nat} (hn : n < 256) (b : UInt8) : UInt8.ofNat n < b ↔ n < b.toNat := by
  rw [UInt8.lt_iff_toNat_lt, UInt8.toNat_ofNat_of_lt' hn]

theorem ofNat_le_iff {n : Nat} (hn : n < 256) (b : UInt8) : UInt8.ofNat n ≤ b ↔ n ≤ b.toNat := by
  rw [UInt8.le_iff_toNat_le, UInt8.toNat_ofNat_of_lt' hn]

theorem le_ofNat_iff {n : Nat} (hn : n < 256) (b : UInt8) : b ≤ UInt8.ofNat n ↔ b.toNat ≤ n := by
  rw [UInt8.le_iff_toNat_le, UInt8.toNat_ofNat_of_lt' hn]

theorem ofNat_eq_iff {n : Nat} (hn : n < 256) (b : UInt8) : UInt8.ofNat n = b ↔ n = b.toNat := by
  rw [← UInt8.toNat_inj, UInt8.toNat_ofNat_of_lt' hn]

theorem scanFrom_append (as rest : List UInt8) : scanFrom as.length (as ++ rest) = scan rest := by
  induction as with
  | nil => rfl
  | cons a as ih => exact ih

/-- A first byte with the bytes that follow it is one item. -/
theorem scan_cons_append {a : UInt8} {bytes rest : List UInt8} {item : Option Char}
    (h : next a (bytes ++ rest) = (item, bytes.length)) :
    scan (a :: (bytes ++ rest)) = item :: scan rest := by
  simp [scan, scanFrom, h, scanFrom_append]

theorem tails_of_tail {n : Nat} {x : Nat} (hx : x < 64) (rest : List UInt8) :
    tails (n + 1) 0x80 0xBF (UInt8.ofNat (x + 128) :: rest) =
      UInt8.ofNat (x + 128) :: tails n 0x80 0xBF rest := by
  rw [tails, if_pos]
  rw [le_ofNat_iff (by omega), ofNat_le_iff (by omega)]
  exact ⟨by simp, by simp; omega⟩

/-- A character of more than one byte, of which the second is within the bounds that the first
one sets. -/
theorem next_of_lead {a low high b : UInt8} {bytes rest : List UInt8} {n : Nat}
    (ha : ¬ a < 0x80) (hl : lead? a = some (n + 1, low, high)) (hb : low ≤ b ∧ b ≤ high)
    (ht : tails n 0x80 0xBF (bytes ++ rest) = bytes) (hn : bytes.length = n) :
    next a (b :: bytes ++ rest) =
      (some (assemble (a.toNat % (64 >>> (n + 1))) (b :: bytes)), (b :: bytes).length) := by
  simp [next, ha, hl, tails, hb, ht, hn]

theorem lead?_two {n : Nat} (h₁ : 2 ≤ n) (h₂ : n < 32) :
    lead? (UInt8.ofNat (n + 192)) = some (1, 0x80, 0xBF) := by
  have hn : n + 192 < 256 := by omega
  rw [lead?, if_neg, if_pos] <;> rw [ofNat_lt_iff hn] <;> simp <;> omega

theorem lead?_three {n : Nat} (h : n < 16) :
    lead? (UInt8.ofNat (n + 224)) =
      some (2, if n = 0 then 0xA0 else 0x80, if n = 13 then 0x9F else 0xBF) := by
  have hn : n + 224 < 256 := by omega
  have h₀ : UInt8.ofNat (n + 224) = 0xE0 ↔ n = 0 := by rw [ofNat_eq_iff hn]; simp
  have h₁ : UInt8.ofNat (n + 224) = 0xED ↔ n = 13 := by rw [ofNat_eq_iff hn]; simp
  rw [lead?, if_neg, if_neg, if_pos]
  · simp only [h₀, h₁]
  all_goals rw [ofNat_lt_iff hn]; simp
  omega

theorem lead?_four {n : Nat} (h : n < 5) :
    lead? (UInt8.ofNat (n + 240)) =
      some (3, if n = 0 then 0x90 else 0x80, if n = 4 then 0x8F else 0xBF) := by
  have hn : n + 240 < 256 := by omega
  have h₀ : UInt8.ofNat (n + 240) = 0xF0 ↔ n = 0 := by rw [ofNat_eq_iff hn]; simp
  have h₁ : UInt8.ofNat (n + 240) = 0xF4 ↔ n = 4 := by rw [ofNat_eq_iff hn]; simp
  rw [lead?, if_neg, if_neg, if_neg, if_pos]
  · simp only [h₀, h₁]
  all_goals rw [ofNat_lt_iff hn]; simp
  omega

/-- Reading a character that was written, whatever follows. -/
theorem scan_encodeChar_append (c : Char) (rest : List UInt8) :
    scan (String.utf8EncodeChar c ++ rest) = some c :: scan rest := by
  have hv : c.val.toNat < 0xD800 ∨ 0xDFFF < c.val.toNat ∧ c.val.toNat < 0x110000 := c.valid
  have hc : Char.ofNat c.val.toNat = c := Char.ofNat_toNat c
  rw [String.utf8EncodeChar]
  generalize c.val.toNat = n at hv hc
  by_cases h₁ : n ≤ 127
  · rw [if_pos h₁]
    apply scan_cons_append
    rw [next, if_pos (by rw [ofNat_lt_iff (by omega)]; simp; omega)]
    simp [assemble, Nat.mod_eq_of_lt (show n < 256 by omega), hc]
  rw [if_neg h₁]
  by_cases h₂ : n ≤ 2047
  · rw [if_pos h₂]
    apply scan_cons_append
    refine (next_of_lead (n := 0) ?_ (lead?_two ?_ ?_) ?_ rfl rfl).trans ?_
    · rw [ofNat_lt_iff (by omega)]
      simp
    · omega
    · omega
    · rw [le_ofNat_iff (by omega), ofNat_le_iff (by omega)]
      simp
      omega
    · simp [assemble]
      rw [← hc]
      congr 1
      omega
  rw [if_neg h₂]
  by_cases h₃ : n ≤ 65535
  · rw [if_pos h₃]
    apply scan_cons_append
    refine (next_of_lead (n := 1) ?_ (lead?_three ?_) ?_ (tails_of_tail ?_ _) rfl).trans ?_
    · rw [ofNat_lt_iff (by omega)]
      simp
    · omega
    · rw [le_ofNat_iff (by omega), ofNat_le_iff (by omega)]
      split <;> split <;> simp <;> omega
    · omega
    · simp [assemble]
      rw [← hc]
      congr 1
      omega
  rw [if_neg h₃, show n / 262144 % 8 = n / 262144 by omega]
  apply scan_cons_append
  refine (next_of_lead (n := 2) ?_ (lead?_four ?_) ?_ ?_ rfl).trans ?_
  · rw [ofNat_lt_iff (by omega)]
    simp
  · omega
  · rw [le_ofNat_iff (by omega), ofNat_le_iff (by omega)]
    split <;> split <;> simp <;> omega
  · exact (tails_of_tail (by omega) _).trans (congrArg _ (tails_of_tail (by omega) _))
  · simp [assemble]
    rw [← hc]
    congr 1
    omega

theorem scan_encode_append (text : List Char) (rest : List UInt8) :
    scan (encode text ++ rest) = text.map some ++ scan rest := by
  induction text with
  | nil => rfl
  | cons c text ih =>
    rw [encode_cons, List.append_assoc, scan_encodeChar_append, ih]
    rfl

theorem scan_encode (text : List Char) : scan (encode text) = text.map some := by
  simpa [scan, scanFrom] using scan_encode_append text []

theorem mapM_id_eq_some_iff {items : List (Option Char)} {text : List Char} :
    items.mapM id = some text ↔ items = text.map some := by
  induction items generalizing text with
  | nil => cases text <;> simp
  | cons item items ih =>
    cases item with
    | none => cases text <;> simp
    | some c =>
      cases text with
      | nil => cases h : items.mapM id <;> simp [h]
      | cons d text =>
        have := @ih text
        cases h : items.mapM id <;> simp_all

/-- Well-formed bytes have no ill-formed piece. -/
theorem decode?_eq_some_iff_scan {bytes : List UInt8} {text : List Char} :
    decode? bytes = some text ↔ scan bytes = text.map some :=
  mapM_id_eq_some_iff

theorem decode?_encode (text : List Char) : decode? (encode text) = some text :=
  decode?_eq_some_iff_scan.mpr (scan_encode text)

theorem tails_succ {n : Nat} {low high : UInt8} {rest : List UInt8}
    (h : (tails (n + 1) low high rest).length = n + 1) :
    ∃ b rest', rest = b :: rest' ∧ low.toNat ≤ b.toNat ∧ b.toNat ≤ high.toNat ∧
      tails (n + 1) low high rest = b :: tails n 0x80 0xBF rest' ∧
      (tails n 0x80 0xBF rest').length = n := by
  cases rest with
  | nil => simp [tails] at h
  | cons b rest =>
    rw [tails] at h ⊢
    split at h
    · next hb =>
      refine ⟨b, rest, rfl, UInt8.le_iff_toNat_le.mp hb.1, UInt8.le_iff_toNat_le.mp hb.2, ?_, ?_⟩
      · rw [if_pos hb]
      · simpa using h
    · simp at h

theorem val_ofNat {n : Nat} (h : n.isValidChar) : (Char.ofNat n).val.toNat = n := by
  rw [Char.ofNat, dif_pos h]
  rfl

theorem encodeChar_one {c : Char} (h : c.val.toNat < 128) :
    String.utf8EncodeChar c = [UInt8.ofNat c.val.toNat] := by
  rw [String.utf8EncodeChar]
  exact if_pos (by omega)

theorem encodeChar_two {c : Char} {x y : Nat} (h : c.val.toNat = x * 64 + y) (hx : 2 ≤ x)
    (hx' : x < 32) (hy : y < 64) :
    String.utf8EncodeChar c = [UInt8.ofNat (x + 192), UInt8.ofNat (y + 128)] := by
  rw [String.utf8EncodeChar]
  generalize c.val.toNat = n at h
  rw [if_neg (by omega), if_pos (by omega), show n / 64 % 32 = x by omega,
    show n % 64 = y by omega]

theorem encodeChar_three {c : Char} {x y z : Nat} (h : c.val.toNat = (x * 64 + y) * 64 + z)
    (hx : 32 ≤ x * 64 + y) (hx' : x < 16) (hy : y < 64) (hz : z < 64) :
    String.utf8EncodeChar c =
      [UInt8.ofNat (x + 224), UInt8.ofNat (y + 128), UInt8.ofNat (z + 128)] := by
  rw [String.utf8EncodeChar]
  generalize c.val.toNat = n at h
  rw [if_neg (by omega), if_neg (by omega), if_pos (by omega), show n / 4096 % 16 = x by omega,
    show n / 64 % 64 = y by omega, show n % 64 = z by omega]

theorem encodeChar_four {c : Char} {x y z w : Nat}
    (h : c.val.toNat = ((x * 64 + y) * 64 + z) * 64 + w) (hx : 16 ≤ x * 64 + y) (hx' : x < 8)
    (hy : y < 64) (hz : z < 64) (hw : w < 64) :
    String.utf8EncodeChar c =
      [UInt8.ofNat (x + 240), UInt8.ofNat (y + 128), UInt8.ofNat (z + 128),
        UInt8.ofNat (w + 128)] := by
  rw [String.utf8EncodeChar]
  generalize c.val.toNat = n at h
  rw [if_neg (by omega), if_neg (by omega), if_neg (by omega), show n / 262144 % 8 = x by omega,
    show n / 4096 % 64 = y by omega, show n / 64 % 64 = z by omega, show n % 64 = w by omega]

theorem eq_ofNat {b : UInt8} {n : Nat} (h : b.toNat = n) : b = UInt8.ofNat n := by
  rw [← h, UInt8.ofNat_toNat]

/-- A first byte and its bounds, in numbers. -/
theorem cases_of_lead? {a low high : UInt8} {n : Nat} (h : lead? a = some (n, low, high)) :
    128 ≤ low.toNat ∧ high.toNat ≤ 191 ∧
      (n = 1 ∧ 194 ≤ a.toNat ∧ a.toNat < 224 ∨
        n = 2 ∧ 224 ≤ a.toNat ∧ a.toNat < 240 ∧ (a.toNat = 224 → 160 ≤ low.toNat) ∧
          (a.toNat = 237 → high.toNat ≤ 159) ∨
        n = 3 ∧ 240 ≤ a.toNat ∧ a.toNat < 245 ∧ (a.toNat = 240 → 144 ≤ low.toNat) ∧
          (a.toNat = 244 → high.toNat ≤ 143)) := by
  simp only [lead?, UInt8.lt_iff_toNat_lt, ← UInt8.toNat_inj] at h
  split at h
  · simp at h
  split at h
  · obtain ⟨rfl, rfl, rfl⟩ := by simpa using h
    simp_all
  split at h
  · obtain ⟨rfl, rfl, rfl⟩ := by simpa using h
    split <;> split <;> simp_all
  split at h
  · obtain ⟨rfl, rfl, rfl⟩ := by simpa using h
    split <;> split <;> simp_all
  · simp at h

/-- An item that is a character is spelled by the bytes it takes. -/
theorem encodeChar_of_next {a : UInt8} {rest : List UInt8} {c : Char} {k : Nat}
    (h : next a rest = (some c, k)) :
    ∃ bytes rest', rest = bytes ++ rest' ∧ bytes.length = k ∧
      String.utf8EncodeChar c = a :: bytes := by
  rw [next] at h
  split at h
  · next ha =>
    obtain ⟨rfl, rfl⟩ := by simpa using h
    have hlt := UInt8.lt_iff_toNat_lt.mp ha
    simp at hlt
    have hv := val_ofNat (n := a.toNat) (.inl (by omega))
    refine ⟨[], rest, rfl, rfl, (encodeChar_one ?_).trans ?_⟩
    · rw [assemble, List.foldl_nil, hv]
      exact hlt
    · rw [assemble, List.foldl_nil, hv, UInt8.ofNat_toNat]
  split at h
  · simp at h
  next n low high hl =>
    by_cases hlen : (tails n low high rest).length = n
    · obtain ⟨rfl, rfl⟩ := by simpa [hlen] using h
      obtain ⟨hlow, hhigh, ha⟩ := cases_of_lead? hl
      rcases ha with ⟨rfl, ha⟩ | ⟨rfl, ha⟩ | ⟨rfl, ha⟩
      · obtain ⟨b, rest, rfl, hb₁, hb₂, ht, -⟩ := tails_succ hlen
        refine ⟨[b], rest, rfl, rfl, ?_⟩
        rw [ht]
        refine (encodeChar_two (x := a.toNat % 32) (y := b.toNat % 64)
          (val_ofNat (.inl (by omega))) ?_ ?_ ?_).trans ?_
        iterate 3 omega
        rw [← eq_ofNat (b := a) (by omega), ← eq_ofNat (b := b) (by omega)]
      · obtain ⟨b, rest, rfl, hb₁, hb₂, ht, hlen⟩ := tails_succ hlen
        obtain ⟨d, rest, rfl, hd₁, hd₂, ht', -⟩ := tails_succ hlen
        simp at hd₁ hd₂
        refine ⟨[b, d], rest, rfl, rfl, ?_⟩
        rw [ht, ht']
        refine (encodeChar_three (x := a.toNat % 16) (y := b.toNat % 64) (z := d.toNat % 64)
          (val_ofNat ?_) ?_ ?_ ?_ ?_).trans ?_
        · show (a.toNat % 16 * 64 + b.toNat % 64) * 64 + d.toNat % 64 < 55296 ∨
            57343 < (a.toNat % 16 * 64 + b.toNat % 64) * 64 + d.toNat % 64 ∧
              (a.toNat % 16 * 64 + b.toNat % 64) * 64 + d.toNat % 64 < 1114112
          omega
        iterate 4 omega
        rw [← eq_ofNat (b := a) (by omega), ← eq_ofNat (b := b) (by omega),
          ← eq_ofNat (b := d) (by omega)]
      · obtain ⟨b, rest, rfl, hb₁, hb₂, ht, hlen⟩ := tails_succ hlen
        obtain ⟨d, rest, rfl, hd₁, hd₂, ht', hlen⟩ := tails_succ hlen
        obtain ⟨e, rest, rfl, he₁, he₂, ht'', -⟩ := tails_succ hlen
        simp at hd₁ hd₂ he₁ he₂
        refine ⟨[b, d, e], rest, rfl, rfl, ?_⟩
        rw [ht, ht', ht'']
        refine (encodeChar_four (x := a.toNat % 8) (y := b.toNat % 64) (z := d.toNat % 64)
          (w := e.toNat % 64) (val_ofNat (.inr ?_)) ?_ ?_ ?_ ?_ ?_).trans ?_
        · show 57343 < ((a.toNat % 8 * 64 + b.toNat % 64) * 64 + d.toNat % 64) * 64 + e.toNat % 64 ∧
            ((a.toNat % 8 * 64 + b.toNat % 64) * 64 + d.toNat % 64) * 64 + e.toNat % 64 < 1114112
          omega
        iterate 5 omega
        rw [← eq_ofNat (b := a) (by omega), ← eq_ofNat (b := b) (by omega),
          ← eq_ofNat (b := d) (by omega), ← eq_ofNat (b := e) (by omega)]
    · simp [hlen] at h

theorem eq_encode_of_scan {bytes : List UInt8} {text : List Char}
    (h : scan bytes = text.map some) : bytes = encode text := by
  induction text generalizing bytes with
  | nil =>
    cases bytes with
    | nil => rfl
    | cons a rest => simp [scan, scanFrom] at h
  | cons c text ih =>
    cases bytes with
    | nil => simp [scan, scanFrom] at h
    | cons a rest =>
      have hnext : next a rest = (some c, (next a rest).2) := by
        simp only [scan, scanFrom, List.map_cons, List.cons.injEq] at h
        exact Prod.ext h.1 rfl
      obtain ⟨bytes, rest, rfl, hlen, hc⟩ := encodeChar_of_next hnext
      rw [← hlen] at hnext
      rw [scan_cons_append hnext, List.map_cons, List.cons.injEq] at h
      rw [encode_cons, hc, ← ih h.2]
      rfl

/-- Bytes have the text that is written as them, and no other. -/
theorem decode?_eq_some_iff {bytes : List UInt8} {text : List Char} :
    decode? bytes = some text ↔ bytes = encode text :=
  ⟨fun h => eq_encode_of_scan (decode?_eq_some_iff_scan.mp h), fun h => h ▸ decode?_encode text⟩

end MarkerCopy.Utf8
