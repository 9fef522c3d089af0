import Folio.Proofs.Text.Pieces
import Folio.Text.Utf8

/-!
# Text written as UTF-8

Each character is read back from its bytes, whatever follows them. And bytes are read as a text only if they
are what the text is written as. A byte below 0x80 is a character by itself, wherever it stands: it parts
what is read in front of it from what is read behind it.
-/
namespace Folio.Utf8
variable {n : Nat} {a b c d : UInt8} {rest bytes : Bytes} {x : Char} {t : Text}
  {more : List (Option Char)}

theorem isTail_iff : isTail b = true ↔ 0x80 ≤ b.toNat ∧ b.toNat ≤ 0xBF := by
  simp [isTail, UInt8.le_iff_toNat_le]

theorem scan_one (h : a.toNat ≤ 0x7f) : scan (a :: rest) = some (Char.ofNat a.toNat) :: scan rest := by
  have ha : a < 0x80 := by
    rw [UInt8.lt_iff_toNat_lt]
    exact Nat.lt_succ_of_le h
  simp [scan.eq_def (a :: rest), ha]

theorem scan_two (hlow : 0xC2 ≤ a.toNat) (hhigh : a.toNat ≤ 0xDF) (hb : isTail b = true) :
    scan (a :: b :: rest) =
      some (Char.ofNat (a.toNat % 32 * 64 + tailBits b)) :: scan rest := by
  have h₁ : ¬ a < 0x80 := by
    simp only [UInt8.lt_iff_toNat_lt, UInt8.reduceToNat]
    omega
  have h₂ : 0xC2 ≤ a := by rwa [UInt8.le_iff_toNat_le]
  have h₃ : a ≤ 0xDF := by rwa [UInt8.le_iff_toNat_le]
  simp [scan.eq_def (a :: b :: rest), h₁, h₂, h₃, hb]

theorem scan_three (hlow : 0xE0 ≤ a.toNat) (hhigh : a.toNat ≤ 0xEF) (hb : maySecond a b = true)
    (hc : isTail c = true) :
    scan (a :: b :: c :: rest) =
      some (Char.ofNat ((a.toNat % 16 * 64 + tailBits b) * 64 + tailBits c)) :: scan rest := by
  have h₁ : ¬ a < 0x80 := by
    simp only [UInt8.lt_iff_toNat_lt, UInt8.reduceToNat]
    omega
  have h₂ : ¬ a ≤ 0xDF := by
    simp only [UInt8.le_iff_toNat_le, UInt8.reduceToNat]
    omega
  have h₃ : 0xE0 ≤ a := by rwa [UInt8.le_iff_toNat_le]
  have h₄ : a ≤ 0xEF := by rwa [UInt8.le_iff_toNat_le]
  simp [scan.eq_def (a :: b :: c :: rest), h₁, h₂, h₃, h₄, hb, hc]

theorem scan_four (hlow : 0xF0 ≤ a.toNat) (hhigh : a.toNat ≤ 0xF4) (hb : maySecond a b = true)
    (hc : isTail c = true) (hd : isTail d = true) :
    scan (a :: b :: c :: d :: rest) =
      some (Char.ofNat (((a.toNat % 8 * 64 + tailBits b) * 64 + tailBits c) * 64 + tailBits d)) ::
        scan rest := by
  have h₁ : ¬ a < 0x80 := by
    simp only [UInt8.lt_iff_toNat_lt, UInt8.reduceToNat]
    omega
  have h₂ : ¬ a ≤ 0xDF := by
    simp only [UInt8.le_iff_toNat_le, UInt8.reduceToNat]
    omega
  have h₃ : ¬ a ≤ 0xEF := by
    simp only [UInt8.le_iff_toNat_le, UInt8.reduceToNat]
    omega
  have h₄ : 0xF0 ≤ a := by rwa [UInt8.le_iff_toNat_le]
  have h₅ : a ≤ 0xF4 := by rwa [UInt8.le_iff_toNat_le]
  simp [scan.eq_def (a :: b :: c :: d :: rest), h₁, h₂, h₃, h₄, h₅, hb, hc, hd]

theorem toNat_ofNat (h : n < 256) : (UInt8.ofNat n).toNat = n := UInt8.toNat_ofNat_of_lt h

theorem tailBits_ofNat (h : n < 0x40) : tailBits (.ofNat (n + 0x80)) = n := by
  rw [tailBits, UInt8.toNat_ofNat']
  omega

theorem isTail_ofNat (h : n < 0x40) : isTail (.ofNat (n + 0x80)) = true := by
  rw [isTail_iff, UInt8.toNat_ofNat']
  omega

theorem maySecond_iff : maySecond a b = true ↔
    0x80 ≤ b.toNat ∧ b.toNat ≤ 0xBF ∧ (a.toNat = 0xE0 → 0xA0 ≤ b.toNat) ∧
      (a.toNat = 0xED → b.toNat ≤ 0x9F) ∧ (a.toNat = 0xF0 → 0x90 ≤ b.toNat) ∧
      (a.toNat = 0xF4 → b.toNat ≤ 0x8F) := by
  unfold maySecond
  simp only [← UInt8.toNat_inj, UInt8.reduceToNat, isTail]
  repeat' split
  all_goals
    simp only [Bool.and_eq_true, decide_eq_true_eq, UInt8.le_iff_toNat_le, UInt8.reduceToNat]
    omega

theorem scan_ofNat_one (h : n ≤ 0x7f) :
    scan (.ofNat n :: rest) = some (Char.ofNat n) :: scan rest := by
  have ha : (UInt8.ofNat n).toNat = n := toNat_ofNat (by omega)
  rw [scan_one (by omega), ha]

theorem scan_ofNat_two (hlow : 0x7f < n) (hhigh : n ≤ 0x7ff) :
    scan (.ofNat (n / 64 % 0x20 + 0xc0) :: .ofNat (n % 0x40 + 0x80) :: rest) =
      some (Char.ofNat n) :: scan rest := by
  have ha : (UInt8.ofNat (n / 64 % 0x20 + 0xc0)).toNat = n / 64 % 0x20 + 0xc0 :=
    toNat_ofNat (by omega)
  rw [scan_two (by omega) (by omega) (isTail_ofNat (by omega)), ha, tailBits_ofNat (by omega)]
  congr 3
  omega

/-- The second byte rules out the surrogates, which no character has. -/
theorem scan_ofNat_three (hlow : 0x7ff < n) (hhigh : n ≤ 0xffff) (hs : n < 0xd800 ∨ 0xdfff < n) :
    scan (.ofNat (n / 4096 % 0x10 + 0xe0) :: .ofNat (n / 64 % 0x40 + 0x80) ::
      .ofNat (n % 0x40 + 0x80) :: rest) = some (Char.ofNat n) :: scan rest := by
  have ha : (UInt8.ofNat (n / 4096 % 0x10 + 0xe0)).toNat = n / 4096 % 0x10 + 0xe0 :=
    toNat_ofNat (by omega)
  have hb : (UInt8.ofNat (n / 64 % 0x40 + 0x80)).toNat = n / 64 % 0x40 + 0x80 :=
    toNat_ofNat (by omega)
  have hsecond : maySecond (.ofNat (n / 4096 % 0x10 + 0xe0)) (.ofNat (n / 64 % 0x40 + 0x80)) =
      true := by
    rw [maySecond_iff, ha, hb]
    omega
  rw [scan_three (by omega) (by omega) hsecond (isTail_ofNat (by omega)), ha,
    tailBits_ofNat (by omega), tailBits_ofNat (by omega)]
  congr 3
  omega

theorem scan_ofNat_four (hlow : 0xffff < n) (hhigh : n < 0x110000) :
    scan (.ofNat (n / 262144 % 0x08 + 0xf0) :: .ofNat (n / 4096 % 0x40 + 0x80) ::
      .ofNat (n / 64 % 0x40 + 0x80) :: .ofNat (n % 0x40 + 0x80) :: rest) =
      some (Char.ofNat n) :: scan rest := by
  have ha : (UInt8.ofNat (n / 262144 % 0x08 + 0xf0)).toNat = n / 262144 % 0x08 + 0xf0 :=
    toNat_ofNat (by omega)
  have hb : (UInt8.ofNat (n / 4096 % 0x40 + 0x80)).toNat = n / 4096 % 0x40 + 0x80 :=
    toNat_ofNat (by omega)
  have hsecond : maySecond (.ofNat (n / 262144 % 0x08 + 0xf0)) (.ofNat (n / 4096 % 0x40 + 0x80)) =
      true := by
    rw [maySecond_iff, ha, hb]
    omega
  rw [scan_four (by omega) (by omega) hsecond (isTail_ofNat (by omega)) (isTail_ofNat (by omega)),
    ha, tailBits_ofNat (by omega), tailBits_ofNat (by omega), tailBits_ofNat (by omega)]
  congr 3
  omega

theorem scan_utf8EncodeChar (c : Char) (rest : Bytes) :
    scan (String.utf8EncodeChar c ++ rest) = some c :: scan rest := by
  have hv : c.val.toNat < 0xd800 ∨ 0xdfff < c.val.toNat ∧ c.val.toNat < 0x110000 := c.valid
  have hc : Char.ofNat c.val.toNat = c := Char.ofNat_toNat c
  unfold String.utf8EncodeChar
  generalize c.val.toNat = n at hv hc
  subst hc
  simp only
  split
  next h₁ => exact scan_ofNat_one h₁
  next h₁ =>
    split
    next h₂ => exact scan_ofNat_two (by omega) h₂
    next h₂ =>
      split
      next h₃ => exact scan_ofNat_three (by omega) h₃ (by omega)
      next h₃ => exact scan_ofNat_four (by omega) (by omega)

theorem scan_encode (t : Text) : scan (encode t) = t.map some := by
  induction t with
  | nil => rfl
  | cons c t ih => rw [encode_cons, scan_utf8EncodeChar, ih, List.map_cons]

theorem decodeLossy_encode (t : Text) : decodeLossy (encode t) = t := by
  simp [decodeLossy, scan_encode, Function.comp_def]

theorem toNat_val_ofNat (h : n.isValidChar) : (Char.ofNat n).val.toNat = n := by
  rw [Char.ofNat, dif_pos h]
  rfl

theorem ofNat_eq (h : n = a.toNat) : UInt8.ofNat n = a := by
  rw [h, UInt8.ofNat_toNat]

theorem encodeChar_one (h : a.toNat < 0x80) : String.utf8EncodeChar (Char.ofNat a.toNat) = [a] := by
  unfold String.utf8EncodeChar
  rw [toNat_val_ofNat (.inl (by omega))]
  simp only
  rw [if_pos (by omega), UInt8.ofNat_toNat]

theorem encodeChar_two (hlow : 0xC2 ≤ a.toNat) (hhigh : a.toNat ≤ 0xDF) (hb : isTail b = true) :
    String.utf8EncodeChar (Char.ofNat (a.toNat % 32 * 64 + tailBits b)) = [a, b] := by
  rw [isTail_iff] at hb
  unfold String.utf8EncodeChar
  rw [tailBits, toNat_val_ofNat (.inl (by omega))]
  simp only
  rw [if_neg (by omega), if_pos (by omega), ofNat_eq (a := a) (by omega), ofNat_eq (a := b) (by omega)]

theorem encodeChar_three (hlow : 0xE0 ≤ a.toNat) (hhigh : a.toNat ≤ 0xEF) (hb : maySecond a b = true)
    (hc : isTail c = true) :
    String.utf8EncodeChar (Char.ofNat ((a.toNat % 16 * 64 + tailBits b) * 64 + tailBits c)) =
      [a, b, c] := by
  rw [isTail_iff] at hc
  rw [maySecond_iff] at hb
  have hvalid : ((a.toNat % 16 * 64 + b.toNat % 64) * 64 + c.toNat % 64).isValidChar := by
    unfold Nat.isValidChar
    omega
  unfold String.utf8EncodeChar
  rw [tailBits, tailBits, toNat_val_ofNat hvalid]
  simp only
  rw [if_neg (by omega), if_neg (by omega), if_pos (by omega), ofNat_eq (a := a) (by omega),
    ofNat_eq (a := b) (by omega), ofNat_eq (a := c) (by omega)]

theorem encodeChar_four (hlow : 0xF0 ≤ a.toNat) (hhigh : a.toNat ≤ 0xF4) (hb : maySecond a b = true)
    (hc : isTail c = true) (hd : isTail d = true) :
    String.utf8EncodeChar (Char.ofNat
      (((a.toNat % 8 * 64 + tailBits b) * 64 + tailBits c) * 64 + tailBits d)) = [a, b, c, d] := by
  rw [isTail_iff] at hc hd
  rw [maySecond_iff] at hb
  have hvalid : (((a.toNat % 8 * 64 + b.toNat % 64) * 64 + c.toNat % 64) * 64 +
      d.toNat % 64).isValidChar := by
    unfold Nat.isValidChar
    omega
  unfold String.utf8EncodeChar
  rw [tailBits, tailBits, tailBits, toNat_val_ofNat hvalid]
  simp only
  rw [if_neg (by omega), if_neg (by omega), if_neg (by omega), ofNat_eq (a := a) (by omega),
    ofNat_eq (a := b) (by omega), ofNat_eq (a := c) (by omega), ofNat_eq (a := d) (by omega)]

/-- A character that is read stands in front of the bytes that are left. -/
theorem exists_of_scan (h : scan bytes = some x :: more) :
    ∃ rest, bytes = String.utf8EncodeChar x ++ rest ∧ scan rest = more := by
  unfold scan at h
  -- only four of the cases give a character, one for each number of bytes
  repeat' split at h
  all_goals try cases h
  next a rest ha =>
    rw [UInt8.lt_iff_toNat_lt] at ha
    exact ⟨rest, by rw [encodeChar_one ha]; rfl, rfl⟩
  next a _ ha _ b rest hb =>
    simp only [Bool.and_eq_true, decide_eq_true_eq, UInt8.le_iff_toNat_le] at ha
    exact ⟨rest, by rw [encodeChar_two ha.1 ha.2 hb]; rfl, rfl⟩
  next a _ _ ha _ b c rest hb hc =>
    simp only [Bool.and_eq_true, decide_eq_true_eq, UInt8.le_iff_toNat_le] at ha
    simp only [Bool.not_eq_true', Bool.not_eq_false] at hb hc
    exact ⟨rest, by rw [encodeChar_three ha.1 ha.2 hb hc]; rfl, rfl⟩
  next a _ _ _ ha _ b c d rest hb hc hd =>
    simp only [Bool.and_eq_true, decide_eq_true_eq, UInt8.le_iff_toNat_le] at ha
    simp only [Bool.not_eq_true', Bool.not_eq_false] at hb hc hd
    exact ⟨rest, by rw [encodeChar_four ha.1 ha.2 hb hc hd]; rfl, rfl⟩

theorem exists_subset_of_scan {p : Option Char} (h : scan bytes = p :: more) :
    ∃ rest, rest ⊆ bytes ∧ scan rest = more := by
  unfold scan at h
  repeat' split at h
  all_goals
    cases h
    try exact ⟨_, fun _ hb => by simp [hb], rfl⟩
  all_goals exact ⟨[], by simp, rfl⟩

theorem scan_eq_nil_iff : scan bytes = [] ↔ bytes = [] := by
  constructor
  · intro h
    unfold scan at h
    repeat' split at h
    all_goals simp_all
  · rintro rfl
    rfl

theorem eq_encode_of_scan (h : scan bytes = t.map some) : bytes = encode t := by
  induction t generalizing bytes with
  | nil =>
    unfold scan at h
    repeat' split at h
    all_goals simp_all
  | cons c t ih =>
    obtain ⟨rest, rfl, hrest⟩ := exists_of_scan h
    rw [encode_cons, ← ih hrest]

theorem mapM_id_eq_some_iff {pieces : List (Option Char)} :
    pieces.mapM id = some t ↔ pieces = t.map some := by
  induction pieces generalizing t with
  | nil => cases t <;> simp
  | cons p pieces ih =>
    rw [List.mapM_cons]
    simp only [id, Option.bind_eq_bind, Option.bind_eq_some_iff, Option.pure_def, Option.some.injEq, ih]
    constructor
    · rintro ⟨c, rfl, u, rfl, rfl⟩
      rfl
    · intro h
      obtain ⟨c, u, rfl, hc, hu⟩ := List.map_eq_cons_iff.1 h.symm
      exact ⟨c, hc.symm, u, hu.symm, rfl⟩

/-- Bytes are the text that is written as these bytes, and no other bytes are a text. -/
theorem decode?_eq_some_iff : decode? bytes = some t ↔ bytes = encode t := by
  rw [decode?, mapM_id_eq_some_iff]
  constructor
  · exact eq_encode_of_scan
  · intro h
    rw [h, scan_encode]

theorem decode?_encode (t : Text) : decode? (encode t) = some t := decode?_eq_some_iff.2 rfl

theorem encode_inj {s : Text} : encode s = encode t ↔ s = t := by
  constructor
  · intro h
    rw [← decodeLossy_encode s, h, decodeLossy_encode]
  · rintro rfl
    rfl

theorem decodeLossy_eq_nil_iff : decodeLossy bytes = [] ↔ bytes = [] := by
  rw [decodeLossy, List.map_eq_nil_iff, scan_eq_nil_iff]

/-- Bytes are lost only where the replacement shows it. -/
theorem encode_decodeLossy (h : replacement ∉ decodeLossy bytes) : encode (decodeLossy bytes) = bytes := by
  have hsome : scan bytes = (decodeLossy bytes).map some := by
    rw [decodeLossy, List.map_map]
    refine (List.map_id (scan bytes)).symm.trans (List.map_congr_left fun p hp => ?_)
    cases p with
    | none => exact absurd (List.mem_map.2 ⟨none, hp, rfl⟩) h
    | some c => rfl
  exact (eq_encode_of_scan hsome).symm

def IsText (bytes : Bytes) : Prop := ∃ t, bytes = encode t

theorem isText_iff : IsText bytes ↔ encode (decodeLossy bytes) = bytes := by
  constructor
  · rintro ⟨t, rfl⟩
    rw [decodeLossy_encode]
  · exact fun h => ⟨_, h.symm⟩

instance (bytes : Bytes) : Decidable (IsText bytes) := decidable_of_iff _ isText_iff.symm

theorem eq_of_map_decodeLossy_eq {names more : List Bytes} (hn : ∀ n ∈ names, IsText n)
    (hm : ∀ n ∈ more, IsText n) (h : names.map decodeLossy = more.map decodeLossy) : names = more := by
  have hread : ∀ l : List Bytes, (∀ n ∈ l, IsText n) → (l.map decodeLossy).map encode = l := by
    intro l hl
    rw [List.map_map]
    exact (List.map_congr_left fun n hn => isText_iff.1 (hl n hn)).trans (List.map_id l)
  rw [← hread names hn, h, hread more hm]

/-! ### Bytes that are characters by themselves -/

theorem scan_append (hb : b.toNat < 0x80) (rest : Bytes) :
    scan (bytes ++ b :: rest) = scan bytes ++ scan (b :: rest) := by
  have htail : isTail b = false := by
    rw [← Bool.not_eq_true, isTail_iff]
    omega
  have hsecond : ∀ a, maySecond a b = false := by
    intro a
    rw [← Bool.not_eq_true, maySecond_iff]
    omega
  -- what is left over at the end of `bytes` is cut short by `b`, as it is by the end
  rcases rest with _ | ⟨e, _ | ⟨f, rest⟩⟩ <;> fun_induction scan bytes
  all_goals try rfl
  all_goals
    simp only [List.cons_append, List.nil_append] at *
    rw [scan.eq_def (_ :: _)]
    simp [*]

theorem decodeLossy_append (hb : b.toNat < 0x80) (bytes rest : Bytes) :
    decodeLossy (bytes ++ b :: rest) = decodeLossy bytes ++ Char.ofNat b.toNat :: decodeLossy rest := by
  rw [decodeLossy, scan_append hb, scan_one (Nat.le_of_lt_succ hb)]
  simp [decodeLossy]

theorem decodeLossy_intercalate (hb : b.toNat < 0x80) (names : List Bytes) :
    decodeLossy ([b].intercalate names) = [Char.ofNat b.toNat].intercalate (names.map decodeLossy) := by
  induction names with
  | nil => rfl
  | cons n names ih =>
    by_cases hn : names = []
    · simp [hn]
    · rw [Text.intercalate_cons hn, decodeLossy_append hb, ih, List.map_cons,
        Text.intercalate_cons (by simpa using hn)]

theorem mem_of_mem_scan (hb : b.toNat < 0x80) (h : some (Char.ofNat b.toNat) ∈ scan bytes) :
    b ∈ bytes := by
  generalize hm : scan bytes = pieces at h
  induction pieces generalizing bytes with
  | nil => simp at h
  | cons p more ih =>
    rcases List.mem_cons.1 h with rfl | h
    · obtain ⟨rest, rfl, -⟩ := exists_of_scan hm
      simp [encodeChar_one hb]
    · obtain ⟨rest, hsub, hrest⟩ := exists_subset_of_scan hm
      exact hsub (ih hrest h)

theorem encode_intercalate (hb : b.toNat < 0x80) (ts : List Text) :
    encode ([Char.ofNat b.toNat].intercalate ts) = [b].intercalate (ts.map encode) := by
  induction ts with
  | nil => rfl
  | cons t ts ih =>
    by_cases ht : ts = []
    · simp [ht]
    · rw [Text.intercalate_cons ht, encode_append, encode_cons, encodeChar_one hb, ih, List.map_cons,
        Text.intercalate_cons (by simpa using ht)]
      rfl

/-- Such a character is read only where its byte stands. -/
theorem mem_of_mem_decodeLossy (hb : b.toNat < 0x80) (h : Char.ofNat b.toNat ∈ decodeLossy bytes) :
    b ∈ bytes := by
  obtain ⟨p, hp, hx⟩ := List.mem_map.1 h
  cases p with
  | none =>
    have hval := congrArg (fun c : Char => c.val.toNat) hx
    have hlow : (Char.ofNat b.toNat).val.toNat = b.toNat := toNat_val_ofNat (.inl (by omega))
    have hhigh : replacement.val.toNat = 0xFFFD := rfl
    simp only [Option.getD_none] at hval
    omega
  | some x => exact mem_of_mem_scan hb (hx ▸ hp)

theorem mem_decodeLossy_iff (hb : b.toNat < 0x80) : Char.ofNat b.toNat ∈ decodeLossy bytes ↔ b ∈ bytes := by
  refine ⟨mem_of_mem_decodeLossy hb, fun h => ?_⟩
  obtain ⟨front, rest, rfl⟩ := List.append_of_mem h
  rw [decodeLossy_append hb]
  simp

theorem mem_encode_iff (hb : b.toNat < 0x80) : b ∈ encode t ↔ Char.ofNat b.toNat ∈ t := by
  rw [← mem_decodeLossy_iff hb, decodeLossy_encode]

theorem head?_of_head?_encode (hb : b.toNat < 0x80) (h : (encode t).head? = some b) :
    t.head? = some (Char.ofNat b.toNat) := by
  obtain ⟨rest, hrest⟩ := List.head?_eq_some_iff.1 h
  have hscan := scan_encode t
  rw [hrest, scan_one (Nat.le_of_lt_succ hb)] at hscan
  cases t with
  | nil => cases hscan
  | cons c t => rw [Option.some.inj (List.cons.inj hscan).1, List.head?_cons]

/-- A text without the replacement is read from its own bytes only. -/
theorem decodeLossy_eq_iff (ht : replacement ∉ t) : decodeLossy bytes = t ↔ bytes = encode t := by
  constructor
  · rintro rfl
    exact (encode_decodeLossy ht).symm
  · rintro rfl
    exact decodeLossy_encode t

end Folio.Utf8
