import Mathlib.Data.Nat.Basic
import Mathlib.Order.Fin.Basic
import Mathlib.Data.List.Basic
import Mathlib.Data.List.Lex
import Mathlib.Algebra.Order.Ring.Nat
import Mathlib.Tactic.Ring

/-!
# Byte strings

Byte strings, their order, and the forms of natural numbers in a fixed number of bytes.
-/

namespace Raftrust.Lib

abbrev Byte := Fin 256

abbrev Bytes := List Byte

/-- Gives byte literals one shared instance. -/
instance byteNeZero : NeZero 256 := ⟨by decide⟩

/-! ### Order -/

/-- Byte strings are compared lexicographically. -/
lemma compare_eq_lt_iff (a b : Bytes) : compare a b = .lt ↔ a < b := by
  induction a generalizing b with
  | nil => cases b <;> simp
  | cons x a ih =>
    cases b with
    | nil => simp
    | cons y b =>
      have hxy : compare x y = .lt ↔ x < y := Std.LawfulLTCmp.eq_lt_iff_lt
      simp [List.cons_lt_cons_iff, Ordering.then_eq_lt, ih, hxy]

lemma compare_eq_gt_iff (a b : Bytes) : compare a b = .gt ↔ b < a := by
  rw [Std.OrientedOrd.eq_swap, Ordering.swap_eq_gt, compare_eq_lt_iff]

lemma lt_add_one_iff_le {b c : Byte} (hb : b ≠ 255) : c < b + 1 ↔ c ≤ b := by
  have hlt : b < Fin.last 255 := lt_of_le_of_ne (Fin.le_last b) hb
  rw [Fin.lt_def, Fin.le_def, Fin.val_add_one_of_lt hlt, Nat.lt_succ_iff]

lemma singleton_zero_le {bs : Bytes} (h : bs ≠ []) : [0] ≤ bs := by
  cases bs with
  | nil => exact absurd rfl h
  | cons b bs =>
    rw [← not_lt, List.cons_lt_cons_iff]
    rintro (hb | ⟨-, hbs⟩)
    · exact Fin.not_lt_zero b hb
    · exact List.not_lt_nil bs hbs

lemma eq_zero_of_lt_replicate {bs : Bytes} {n : ℕ} (h : bs < List.replicate n 0) :
    ∀ b ∈ bs, b = 0 := by
  induction bs generalizing n with
  | nil => simp
  | cons b bs ih =>
    cases n with
    | zero => simp at h
    | succ n =>
      rw [List.replicate_succ, List.cons_lt_cons_iff] at h
      rcases h with hlt | ⟨rfl, hlt⟩
      · exact absurd hlt (Fin.not_lt_zero b)
      · simpa using ih hlt

lemma not_lt_replicate_zero {bs : Bytes} {n : ℕ} (h : n ≤ bs.length) :
    ¬ bs < List.replicate n 0 := by
  induction bs generalizing n with
  | nil =>
    obtain rfl := Nat.le_zero.mp h
    exact List.not_lt_nil _
  | cons b bs ih =>
    cases n with
    | zero => exact List.not_lt_nil _
    | succ n =>
      rw [List.replicate_succ, List.cons_lt_cons_iff]
      rintro (hlt | ⟨-, hlt⟩)
      · exact Fin.not_lt_zero b hlt
      · exact ih (Nat.le_of_succ_le_succ h) hlt

lemma lt_of_append_lt {bs cs xs : Bytes} {n : ℕ} (hxs : n ≤ xs.length)
    (h : bs ++ xs < cs ++ List.replicate n 0) : bs < cs := by
  induction cs generalizing bs with
  | nil => exact absurd h (not_lt_replicate_zero (by simp; omega))
  | cons c cs ih =>
    cases bs with
    | nil => exact List.nil_lt_cons c cs
    | cons b bs =>
      rw [List.cons_append, List.cons_append, List.cons_lt_cons_iff] at h
      rw [List.cons_lt_cons_iff]
      exact h.imp_right fun h => ⟨h.1, ih h.2⟩

lemma append_lt_append_of_lt {bs cs : Bytes} (h : bs < cs) (hbs : ¬ bs <+: cs) (xs ys : Bytes) :
    bs ++ xs < cs ++ ys := by
  induction bs generalizing cs with
  | nil => exact absurd List.nil_prefix hbs
  | cons b bs ih =>
    cases cs with
    | nil => exact absurd h (List.not_lt_nil _)
    | cons c cs =>
      rw [List.cons_append, List.cons_append, List.cons_lt_cons_iff]
      rw [List.cons_lt_cons_iff] at h
      rcases h with hlt | ⟨rfl, hlt⟩
      · exact .inl hlt
      · rw [List.prefix_cons_inj] at hbs
        exact .inr ⟨rfl, ih hlt hbs⟩

/-- A byte string that does not share its first bytes with bytes `0xFF` comes before them. -/
lemma append_lt_append_of_forall {bs cs : Bytes} (h : ∀ b ∈ bs, b = 255) (hbs : ¬ bs <+: cs)
    (hcs : ¬ cs <+: bs) (xs ys : Bytes) : cs ++ xs < bs ++ ys := by
  induction bs generalizing cs with
  | nil => exact absurd List.nil_prefix hbs
  | cons b bs ih =>
    cases cs with
    | nil => exact absurd List.nil_prefix hcs
    | cons c cs =>
      obtain rfl := h b List.mem_cons_self
      rw [List.cons_append, List.cons_append, List.cons_lt_cons_iff]
      by_cases hc : c = 255
      · subst hc
        rw [List.prefix_cons_inj] at hbs hcs
        exact .inr ⟨rfl, ih (fun b hb => h b (List.mem_cons_of_mem _ hb)) hbs hcs⟩
      · exact .inl (lt_of_le_of_ne (Fin.le_last c) hc)

/-! ### Little-endian numbers -/

/-- The `w` low-order bytes of `n`, least significant first. -/
def toLe : ℕ → ℕ → Bytes
  | 0, _ => []
  | w + 1, n => Fin.ofNat 256 n :: toLe w (n / 256)

/-- The number whose bytes, least significant first, are `bs`. -/
def fromLe : Bytes → ℕ
  | [] => 0
  | b :: bs => b.val + 256 * fromLe bs

@[simp] lemma toLe_length (w n : ℕ) : (toLe w n).length = w := by
  induction w generalizing n with
  | zero => rfl
  | succ w ih => simp [toLe, ih]

@[simp] lemma take_toLe_append (w n : ℕ) (rest : Bytes) : (toLe w n ++ rest).take w = toLe w n :=
  List.take_left' (toLe_length w n)

@[simp] lemma drop_toLe_append {w k : ℕ} (h : w ≤ k) (n : ℕ) (rest : Bytes) :
    (toLe w n ++ rest).drop k = rest.drop (k - w) := by
  rw [List.drop_append, toLe_length, List.drop_eq_nil_of_le (by simpa), List.nil_append]

lemma fromLe_toLe_mod (w n : ℕ) : fromLe (toLe w n) = n % 256 ^ w := by
  induction w generalizing n with
  | zero => simp [toLe, fromLe, Nat.mod_one]
  | succ w ih =>
    simp only [toLe, fromLe, ih, Fin.val_ofNat]
    rw [pow_succ, Nat.mul_comm (256 ^ w) 256, Nat.mod_mul]

/-- A number that fits is read back. -/
lemma fromLe_toLe {w n : ℕ} (h : n < 256 ^ w) : fromLe (toLe w n) = n := by
  rw [fromLe_toLe_mod, Nat.mod_eq_of_lt h]

/-- Bytes that were read as a number are what the number is written as. -/
lemma toLe_fromLe (bs : Bytes) : toLe bs.length (fromLe bs) = bs := by
  induction bs with
  | nil => rfl
  | cons b bs ih =>
    have hb := b.isLt
    have hmod : (b.val + 256 * fromLe bs) % 256 = b.val := by omega
    have hdiv : (b.val + 256 * fromLe bs) / 256 = fromLe bs := by omega
    simp only [fromLe, List.length_cons, toLe, hdiv, ih, List.cons.injEq, and_true]
    exact Fin.ext (by rw [Fin.val_ofNat, hmod])

lemma fromLe_lt (bs : Bytes) : fromLe bs < 256 ^ bs.length := by
  rw [← toLe_fromLe bs, fromLe_toLe_mod, toLe_length]
  exact Nat.mod_lt _ (Nat.pow_pos (by decide))

lemma fromLe_take_lt (w : ℕ) (bs : Bytes) : fromLe (bs.take w) < 256 ^ w :=
  (fromLe_lt _).trans_le (Nat.pow_le_pow_right (by decide) (List.length_take_le w bs))

/-- Bytes that are long enough start with a number. -/
lemma exists_toLe_append {w : ℕ} {bs : Bytes} (h : w ≤ bs.length) :
    ∃ n < 256 ^ w, ∃ rest, bs = toLe w n ++ rest := by
  have hlen : (bs.take w).length = w := List.length_take_of_le h
  have hnumber : toLe w (fromLe (bs.take w)) = bs.take w := by
    simpa only [hlen] using toLe_fromLe (bs.take w)
  refine ⟨fromLe (bs.take w), fromLe_take_lt w bs, bs.drop w, ?_⟩
  rw [hnumber, List.take_append_drop]

/-- A loop that takes one encoded item off the front in each round returns the items whose encodings
the input starts with, and nothing else. -/
lemma readLoop_eq_ok_iff {α η : Type*} {loop : ℕ → Bytes → Except η (List α)} {encode : α → Bytes}
    {P : α → Prop} (hzero : ∀ bs, loop 0 bs = .ok [])
    (hsucc : ∀ n bs as, loop (n + 1) bs = .ok as ↔
      ∃ a rest as', P a ∧ bs = encode a ++ rest ∧ loop n rest = .ok as' ∧ as = a :: as')
    {n : ℕ} {bs : Bytes} {as : List α} :
    loop n bs = .ok as ↔ as.length = n ∧ (∀ a ∈ as, P a) ∧ as.flatMap encode <+: bs := by
  induction n generalizing bs as with
  | zero =>
    rw [hzero, Except.ok.injEq, List.length_eq_zero_iff]
    constructor
    · rintro rfl
      exact ⟨rfl, by simp, List.nil_prefix⟩
    · rintro ⟨rfl, -, -⟩
      rfl
  | succ n ih =>
    rw [hsucc]
    constructor
    · rintro ⟨a, rest, as', ha, rfl, hloop, rfl⟩
      obtain ⟨hlen, hvalid, hstarts⟩ := ih.mp hloop
      refine ⟨congrArg (· + 1) hlen, List.forall_mem_cons.mpr ⟨ha, hvalid⟩, ?_⟩
      rw [List.flatMap_cons]
      exact (List.prefix_append_right_inj _).mpr hstarts
    · rintro ⟨hlen, hvalid, hstarts⟩
      cases as with
      | nil => cases hlen
      | cons a as' =>
        obtain ⟨ha, hvalid⟩ := List.forall_mem_cons.mp hvalid
        obtain ⟨tail, rfl⟩ := hstarts
        refine ⟨a, as'.flatMap encode ++ tail, as', ha, ?_, ?_, rfl⟩
        · rw [List.flatMap_cons, List.append_assoc]
        · exact ih.mpr ⟨Nat.succ.inj hlen, hvalid, List.prefix_append _ _⟩

/-- A loop that reads one encoded item in each round reads back a sequence of them. -/
lemma readLoop_flatMap {α η : Type*} {loop : ℕ → Bytes → Except η (List α)} {encode : α → Bytes}
    {P : α → Prop} (hzero : ∀ rest, loop 0 rest = .ok [])
    (hsucc : ∀ a, P a → ∀ n rest, loop (n + 1) (encode a ++ rest) = (loop n rest).map (a :: ·))
    {as : List α} (h : ∀ a ∈ as, P a) {n : ℕ} (hn : n ≤ as.length) :
    loop n (as.flatMap encode) = .ok (as.take n) := by
  induction as generalizing n with
  | nil =>
    obtain rfl := Nat.le_zero.mp hn
    exact hzero _
  | cons a as ih =>
    cases n with
    | zero => exact hzero _
    | succ n =>
      have hrest := ih (fun a ha => h a (List.mem_cons_of_mem _ ha)) (Nat.le_of_succ_le_succ hn)
      rw [List.flatMap_cons, hsucc a (h a List.mem_cons_self), hrest]
      rfl

/-! ### Big-endian numbers -/

/-- The `w` low-order bytes of `n`, most significant first. -/
def toBe (w n : ℕ) : Bytes :=
  (toLe w n).reverse

/-- The number whose bytes, most significant first, are `bs`. -/
def fromBe (bs : Bytes) : ℕ :=
  fromLe bs.reverse

@[simp] lemma toBe_length (w n : ℕ) : (toBe w n).length = w := by
  simp [toBe]

lemma fromBe_toBe {w n : ℕ} (h : n < 256 ^ w) : fromBe (toBe w n) = n := by
  rw [fromBe, toBe, List.reverse_reverse, fromLe_toLe h]

lemma append_lt_append_iff {a b : Bytes} (h : a.length = b.length) (c d : Bytes) :
    a ++ c < b ++ d ↔ a < b ∨ a = b ∧ c < d := by
  induction a generalizing b with
  | nil =>
    obtain rfl : b = [] := List.length_eq_zero_iff.mp h.symm
    simp
  | cons x a ih =>
    cases b with
    | nil => simp at h
    | cons y b =>
      simp only [List.cons_append, List.cons_lt_cons_iff, ih (Nat.succ.inj h), List.cons.injEq]
      tauto

lemma toBe_succ (w n : ℕ) : toBe (w + 1) n = toBe w (n / 256) ++ [Fin.ofNat 256 n] := by
  simp [toBe, toLe]

/-- Numbers are ordered as their big-endian forms. -/
lemma toBe_lt_toBe_iff {w a b : ℕ} (ha : a < 256 ^ w) (hb : b < 256 ^ w) :
    toBe w a < toBe w b ↔ a < b := by
  induction w generalizing a b with
  | zero =>
    simp at ha hb
    simp [ha, hb]
  | succ w ih =>
    have ha' : a / 256 < 256 ^ w := Nat.div_lt_of_lt_mul (by rwa [mul_comm, ← pow_succ])
    have hb' : b / 256 < 256 ^ w := Nat.div_lt_of_lt_mul (by rwa [mul_comm, ← pow_succ])
    have heq : toBe w (a / 256) = toBe w (b / 256) ↔ a / 256 = b / 256 := by
      constructor
      · intro h
        rw [← fromBe_toBe ha', h, fromBe_toBe hb']
      · intro h
        rw [h]
    rw [toBe_succ, toBe_succ, append_lt_append_iff (by simp), ih ha' hb', heq]
    have hlast : [Fin.ofNat 256 a] < [Fin.ofNat 256 b] ↔ a % 256 < b % 256 := by
      rw [List.cons_lt_cons_iff, Fin.lt_def, Fin.val_ofNat, Fin.val_ofNat]
      simp only [lt_irrefl, and_false, or_false]
    rw [hlast]
    omega

/-! ### Bit strings -/

/-- The number whose bits, least significant first, are `bits`. -/
def fromBits : List Bool → ℕ
  | [] => 0
  | b :: bits => b.toNat + 2 * fromBits bits

/-- The `w` low-order bits of `n`, least significant first. -/
def toBits : ℕ → ℕ → List Bool
  | 0, _ => []
  | w + 1, n => decide (n % 2 = 1) :: toBits w (n / 2)

lemma toBits_fromBits (w : ℕ) {bits : List Bool} (h : bits.length ≤ w) :
    toBits w (fromBits bits) = bits ++ List.replicate (w - bits.length) false := by
  induction w generalizing bits with
  | zero => simp [toBits, List.length_eq_zero_iff.mp (Nat.le_zero.mp h)]
  | succ w ih =>
    cases bits with
    | nil =>
      have hnil := ih (List.length_nil.trans_le (Nat.zero_le w))
      simp only [fromBits, List.nil_append, List.length_nil, Nat.sub_zero] at hnil ⊢
      rw [toBits, hnil]
      rfl
    | cons b bits =>
      have hmod : (b.toNat + 2 * fromBits bits) % 2 = b.toNat := by cases b <;> simp
      have hdiv : (b.toNat + 2 * fromBits bits) / 2 = fromBits bits := by
        cases b <;> simp
        omega
      rw [fromBits, toBits, hmod, hdiv, ih (Nat.le_of_succ_le_succ h)]
      cases b <;> simp

lemma fromBits_lt (bits : List Bool) : fromBits bits < 2 ^ bits.length := by
  induction bits with
  | nil => simp [fromBits]
  | cons b bits ih =>
    have hb : b.toNat ≤ 1 := Bool.toNat_le b
    rw [fromBits, List.length_cons, pow_succ]
    omega

/-- Bits packed into bytes from the low-order end, the last byte filled up with zeros. -/
def packBits (bits : List Bool) : Bytes :=
  (List.range ((bits.length + 7) / 8)).map fun i =>
    Fin.ofNat 256 (fromBits ((bits.drop (8 * i)).take 8))

/-- The bits of the bytes, eight for each. -/
def unpackBits (bs : Bytes) : List Bool :=
  bs.flatMap fun b => toBits 8 b.val

lemma packBits_length (bits : List Bool) : (packBits bits).length = (bits.length + 7) / 8 := by
  simp [packBits]

lemma packBits_of_ne_nil {bits : List Bool} (h : bits ≠ []) :
    packBits bits = Fin.ofNat 256 (fromBits (bits.take 8)) :: packBits (bits.drop 8) := by
  have hpos := List.length_pos_iff.mpr h
  have hcount : (bits.length + 7) / 8 = (bits.length - 8 + 7) / 8 + 1 := by omega
  rw [packBits, packBits, hcount, List.range_succ_eq_map, List.map_cons, List.map_map,
    List.length_drop]
  congr 1
  apply List.map_congr_left
  intro i _
  rw [Function.comp_apply, List.drop_drop, Nat.mul_succ, Nat.add_comm 8]

lemma unpackBits_packBits (bits : List Bool) :
    ∃ n, unpackBits (packBits bits) = bits ++ List.replicate n false := by
  induction hlen : bits.length using Nat.strong_induction_on generalizing bits with
  | h len ih =>
    by_cases hnil : bits = []
    · subst hnil
      exact ⟨0, rfl⟩
    have hpos := List.length_pos_iff.mpr hnil
    obtain ⟨n, hn⟩ := ih (bits.drop 8).length (by rw [List.length_drop]; omega) _ rfl
    have htake : (bits.take 8).length ≤ 8 := List.length_take_le 8 bits
    have hbyte : fromBits (bits.take 8) % 256 = fromBits (bits.take 8) :=
      Nat.mod_eq_of_lt ((fromBits_lt _).trans_le (Nat.pow_le_pow_right (by decide) htake))
    have hfirst : unpackBits (packBits bits) =
        toBits 8 (fromBits (bits.take 8)) ++ unpackBits (packBits (bits.drop 8)) := by
      rw [packBits_of_ne_nil hnil, unpackBits, List.flatMap_cons, Fin.val_ofNat, hbyte]
      rfl
    rw [hfirst, toBits_fromBits 8 htake, hn]
    rcases Nat.lt_or_ge bits.length 8 with hlt | hge
    · refine ⟨8 - bits.length + n, ?_⟩
      rw [List.take_of_length_le hlt.le, List.drop_of_length_le hlt.le, List.nil_append,
        List.append_assoc, List.replicate_append_replicate]
    · refine ⟨n, ?_⟩
      rw [List.length_take_of_le hge, Nat.sub_self, List.replicate_zero, List.append_nil,
        ← List.append_assoc, List.take_append_drop]

/-! ### Signed numbers -/

lemma ofNat_int64_inj {a b : ℕ} (ha : a < 2 ^ 64) (hb : b < 2 ^ 64)
    (h : Int64.ofNat a = Int64.ofNat b) : a = b := by
  have hmod : a % 2 ^ 64 = b % 2 ^ 64 := by
    simpa using congrArg (fun x => x.toBitVec.toNat) h
  rwa [Nat.mod_eq_of_lt ha, Nat.mod_eq_of_lt hb] at hmod

end Raftrust.Lib
