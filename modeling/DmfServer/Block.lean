/-
# Objects of a fixed size, and C strings written into them

`Block n` is an object of exactly `n` bytes.  `Block.poke` is the one way to
change it: it writes a run of bytes at an offset, or faults when the run does
not end inside the object.  `Block.strcpy` and `Block.strcat` are `poke` of a
terminated text, so that writing past one field of a struct into the next is
what it is in memory.
-/
import DmfServer.CMemory

namespace CMem

/-- An object of `n` bytes. -/
structure Block (n : ℕ) where
  /-- The bytes of the object. -/
  bytes : List UInt8
  /-- There are exactly `n` of them. -/
  length_bytes : bytes.length = n
  deriving DecidableEq

namespace Block

variable {n : ℕ}

@[ext] theorem ext {b c : Block n} (h : b.bytes = c.bytes) : b = c := by
  cases b; cases c; cases h; rfl

/-- The object `memset` to zero. -/
def zero (n : ℕ) : Block n := ⟨List.replicate n 0, List.length_replicate⟩

/-- Write `src` at offset `off`. -/
def poke (b : Block n) (off : ℕ) (src : List UInt8) : Except Fault (Block n) :=
  if h : off + src.length ≤ n then
    .ok ⟨b.bytes.take off ++ src ++ b.bytes.drop (off + src.length), by
      have hb := b.length_bytes
      simp only [List.length_append, List.length_take, List.length_drop]
      omega⟩
  else .error .write

/-- The C string at offset `off`: up to the first NUL, or to the end of the object. -/
def str (b : Block n) (off : ℕ) : List UInt8 := cstr (b.bytes.drop off)

/-- `strcpy` of the text `s` to offset `off`. -/
def strcpy (b : Block n) (off : ℕ) (s : List UInt8) : Except Fault (Block n) :=
  b.poke off (s ++ [0])

/-- `strcat` of the text `s` to the string at offset `off`. -/
def strcat (b : Block n) (off : ℕ) (s : List UInt8) : Except Fault (Block n) :=
  b.poke (off + (b.str off).length) (s ++ [0])

/-- Read the C string at `off`; a string that no NUL ends inside the object faults. -/
def readStr (b : Block n) (off : ℕ) : Except Fault (List UInt8) :=
  if (0 : UInt8) ∈ b.bytes.drop off then .ok (b.str off) else .error .read

/-! ## What `poke` writes -/

theorem poke_eq_ok {b : Block n} {off : ℕ} {src : List UInt8}
    (h : off + src.length ≤ n) :
    ∃ b', b.poke off src = .ok b' ∧
      b'.bytes = b.bytes.take off ++ src ++ b.bytes.drop (off + src.length) := by
  unfold poke
  rw [dif_pos h]
  exact ⟨_, rfl, rfl⟩

theorem poke_eq_error {b : Block n} {off : ℕ} {src : List UInt8}
    (h : n < off + src.length) : b.poke off src = .error .write := by
  unfold poke
  rw [dif_neg (by omega)]

theorem poke_eq_ok_iff {b b' : Block n} {off : ℕ} {src : List UInt8} :
    b.poke off src = .ok b' ↔
      off + src.length ≤ n ∧
        b'.bytes = b.bytes.take off ++ src ++ b.bytes.drop (off + src.length) := by
  constructor
  · intro h
    by_cases hle : off + src.length ≤ n
    · obtain ⟨c, hc, hbytes⟩ := poke_eq_ok (b := b) hle
      rw [hc] at h
      cases h
      exact ⟨hle, hbytes⟩
    · rw [poke_eq_error (by omega)] at h
      cases h
  · rintro ⟨hle, hbytes⟩
    obtain ⟨c, hc, hcbytes⟩ := poke_eq_ok (b := b) hle
    rw [hc, ext (hbytes.trans hcbytes.symm)]

/-- Reading from the written run on: the rest of the run, then the old bytes. -/
theorem drop_poke {b b' : Block n} {off k : ℕ} {src : List UInt8}
    (h : b.poke off src = .ok b') (h₁ : off ≤ k) (h₂ : k ≤ off + src.length) :
    b'.bytes.drop k = src.drop (k - off) ++ b.bytes.drop (off + src.length) := by
  obtain ⟨hle, hbytes⟩ := poke_eq_ok_iff.mp h
  have hoff : (b.bytes.take off).length = off := by
    rw [List.length_take, b.length_bytes]
    omega
  rw [hbytes, List.append_assoc, List.drop_append, hoff, List.drop_append,
    List.drop_of_length_le (by omega), List.nil_append,
    show k - off - src.length = 0 from by omega, List.drop_zero]

/-- Reading above the written run: the old bytes. -/
theorem drop_poke_above {b b' : Block n} {off k : ℕ} {src : List UInt8}
    (h : b.poke off src = .ok b') (hk : off + src.length ≤ k) :
    b'.bytes.drop k = b.bytes.drop k := by
  have hend := drop_poke h (Nat.le_add_right off src.length) le_rfl
  rw [show off + src.length - off = src.length from by omega, List.drop_length,
    List.nil_append] at hend
  obtain ⟨d, rfl⟩ := Nat.exists_eq_add_of_le hk
  have hsplit : ∀ l : List UInt8,
      l.drop (off + src.length + d) = (l.drop (off + src.length)).drop d :=
    fun l => by rw [List.drop_drop]
  rw [hsplit, hsplit, hend]

/-- Reading below the written run: the old bytes up to it, then the run. -/
theorem drop_poke_below {b b' : Block n} {off k : ℕ} {src : List UInt8}
    (h : b.poke off src = .ok b') (hk : k ≤ off) :
    b'.bytes.drop k
      = (b.bytes.drop k).take (off - k) ++ (src ++ b.bytes.drop (off + src.length)) := by
  obtain ⟨hle, hbytes⟩ := poke_eq_ok_iff.mp h
  have hlen : (b.bytes.take off).length = off := by
    rw [List.length_take, b.length_bytes]
    omega
  rw [hbytes, List.append_assoc, List.drop_append_of_le_length (by omega), List.drop_take]

/-- A byte of the object after a write. -/
theorem getElem?_poke {b b' : Block n} {off : ℕ} {src : List UInt8}
    (h : b.poke off src = .ok b') (i : ℕ) :
    b'.bytes[i]?
      = if off ≤ i ∧ i < off + src.length then src[i - off]? else b.bytes[i]? := by
  obtain ⟨hle, hbytes⟩ := poke_eq_ok_iff.mp h
  have hlen : (b.bytes.take off).length = off := by
    rw [List.length_take, b.length_bytes]
    omega
  rw [hbytes, List.append_assoc]
  by_cases h₁ : i < off
  · rw [List.getElem?_append_left (by omega), List.getElem?_take_of_lt h₁, if_neg (by omega)]
  · rw [List.getElem?_append_right (by omega), hlen]
    by_cases h₂ : i < off + src.length
    · rw [List.getElem?_append_left (by omega), if_pos ⟨by omega, h₂⟩]
    · rw [List.getElem?_append_right (by omega), List.getElem?_drop, if_neg (by omega)]
      congr 1
      omega

/-- A run of bytes apart from the written one stays. -/
theorem take_drop_poke {b b' : Block n} {off k len : ℕ} {src : List UInt8}
    (h : b.poke off src = .ok b') (hk : k + len ≤ off ∨ off + src.length ≤ k) :
    (b'.bytes.drop k).take len = (b.bytes.drop k).take len := by
  apply List.ext_getElem?
  intro i
  rw [List.getElem?_take, List.getElem?_take]
  split
  · rw [List.getElem?_drop, List.getElem?_drop, getElem?_poke h, if_neg (by omega)]
  · rfl

/-- Writes to places apart from each other commute, faults included. -/
theorem poke_comm (b : Block n) {o₁ o₂ : ℕ} {s₁ s₂ : List UInt8}
    (h : o₁ + s₁.length ≤ o₂) :
    (b.poke o₁ s₁ >>= fun b => b.poke o₂ s₂) = b.poke o₂ s₂ >>= fun b => b.poke o₁ s₁ := by
  by_cases h₂ : o₂ + s₂.length ≤ n
  · have h₁ : o₁ + s₁.length ≤ n := by omega
    obtain ⟨b₁, hb₁, -⟩ := poke_eq_ok (b := b) h₁
    obtain ⟨b₂, hb₂, -⟩ := poke_eq_ok (b := b) h₂
    obtain ⟨c₁, hc₁, -⟩ := poke_eq_ok (b := b₁) h₂
    obtain ⟨c₂, hc₂, -⟩ := poke_eq_ok (b := b₂) h₁
    rw [hb₁, hb₂, ok_bind, ok_bind, hc₁, hc₂]
    congr 1
    apply ext
    apply List.ext_getElem?
    intro i
    rw [getElem?_poke hc₁, getElem?_poke hb₁, getElem?_poke hc₂, getElem?_poke hb₂]
    by_cases hi₁ : o₁ ≤ i ∧ i < o₁ + s₁.length
    · rw [if_neg (by omega), if_pos hi₁, if_pos hi₁]
    · rw [if_neg hi₁, if_neg hi₁]
  · rw [poke_eq_error (b := b) (Nat.lt_of_not_le h₂), error_bind]
    by_cases h₁ : o₁ + s₁.length ≤ n
    · obtain ⟨b₁, hb₁, -⟩ := poke_eq_ok (b := b) h₁
      rw [hb₁, ok_bind, poke_eq_error (Nat.lt_of_not_le h₂)]
    · rw [poke_eq_error (Nat.lt_of_not_le h₁), error_bind]

/-- A string is ended by a NUL inside the object when there is room for one behind it. -/
theorem mem_drop_iff {b : Block n} {off : ℕ} :
    (0 : UInt8) ∈ b.bytes.drop off ↔ off + (b.str off).length < n := by
  have hlen : (b.bytes.drop off).length = n - off := by rw [List.length_drop, b.length_bytes]
  constructor
  · intro h
    obtain ⟨rest, hrest⟩ := exists_eq_cstr_append h
    have hsum := congrArg List.length hrest
    rw [hlen, List.length_append, List.length_cons] at hsum
    show off + (cstr (b.bytes.drop off)).length < n
    omega
  · intro h
    by_contra hno
    have hall : b.str off = b.bytes.drop off := by
      unfold str cstr
      rw [List.takeWhile_eq_self_iff]
      intro c hc
      have hne : c ≠ 0 := fun h0 => hno (h0 ▸ hc)
      simpa using hne
    rw [hall, hlen] at h
    omega

/-- Below the place of a write, a string that ends before it is unchanged. -/
theorem str_poke_below {b b' : Block n} {off k : ℕ} {src : List UInt8}
    (h : b.poke off src = .ok b') (hk : k + (b.str k).length < off) :
    b'.str k = b.str k := by
  obtain ⟨hle, -⟩ := poke_eq_ok_iff.mp h
  have hnul : (0 : UInt8) ∈ b.bytes.drop k := mem_drop_iff.mpr (by omega)
  obtain ⟨rest, hrest⟩ := exists_eq_cstr_append hnul
  have hstr : b.bytes.drop k = b.str k ++ 0 :: rest := hrest
  have htext : IsText (b.str k) := isText_cstr _
  unfold str
  rw [drop_poke_below h (by omega), hstr,
    show off - k = (b.str k).length + (off - k - (b.str k).length - 1 + 1) from by omega,
    List.take_length_add_append, List.take_succ_cons, List.append_assoc, List.cons_append,
    cstr_append_zero htext, cstr_append_zero htext]

/-- A string above a write is unchanged. -/
theorem str_poke_above {b b' : Block n} {off k : ℕ} {src : List UInt8}
    (h : b.poke off src = .ok b') (hk : off + src.length ≤ k) :
    b'.str k = b.str k := by
  unfold str
  rw [drop_poke_above h hk]

/-! ## `strcpy` -/

theorem strcpy_eq_ok {b : Block n} {off : ℕ} {s : List UInt8}
    (h : off + s.length + 1 ≤ n) : ∃ b', b.strcpy off s = .ok b' := by
  have hle : off + (s ++ [0]).length ≤ n := by
    rw [List.length_append, List.length_singleton]
    omega
  obtain ⟨b', hb', -⟩ := poke_eq_ok (b := b) hle
  exact ⟨b', hb'⟩

theorem strcpy_eq_error {b : Block n} {off : ℕ} {s : List UInt8}
    (h : n < off + s.length + 1) : b.strcpy off s = .error .write :=
  poke_eq_error (by simp only [List.length_append, List.length_singleton]; omega)

theorem le_of_strcpy {b b' : Block n} {off : ℕ} {s : List UInt8}
    (h : b.strcpy off s = .ok b') : off + s.length + 1 ≤ n := by
  have hle := (poke_eq_ok_iff.mp h).1
  simp only [List.length_append, List.length_singleton] at hle
  omega

/-- The copied text, and any later part of it, reads back. -/
theorem str_strcpy {b b' : Block n} {off : ℕ} {s : List UInt8} (hs : IsText s)
    (h : b.strcpy off s = .ok b') (k : ℕ) (hk : k ≤ s.length) :
    b'.str (off + k) = s.drop k := by
  unfold str
  rw [drop_poke h (by omega) (by simp only [List.length_append, List.length_singleton]; omega),
    show off + k - off = k from by omega, List.drop_append_of_le_length hk, List.append_assoc,
    List.singleton_append, cstr_append_zero (hs.drop k)]

theorem str_strcpy_self {b b' : Block n} {off : ℕ} {s : List UInt8} (hs : IsText s)
    (h : b.strcpy off s = .ok b') : b'.str off = s := by
  simpa using str_strcpy hs h 0 (Nat.zero_le _)

theorem str_strcpy_above {b b' : Block n} {off k : ℕ} {s : List UInt8}
    (h : b.strcpy off s = .ok b') (hk : off + s.length < k) : b'.str k = b.str k :=
  str_poke_above h (by simp only [List.length_append, List.length_singleton]; omega)

theorem str_strcpy_below {b b' : Block n} {off k : ℕ} {s : List UInt8}
    (h : b.strcpy off s = .ok b') (hk : k + (b.str k).length < off) : b'.str k = b.str k :=
  str_poke_below h hk

/-! ## `strcat` -/

/-- `strcat` behind the text that ends at a NUL is `strcpy` there. -/
theorem strcat_eq (b : Block n) (off : ℕ) (s : List UInt8) :
    b.strcat off s = b.strcpy (off + (b.str off).length) s := rfl

/-- The string is the bytes up to its NUL. -/
theorem take_str (b : Block n) (off : ℕ) :
    (b.bytes.drop off).take (b.str off).length = b.str off :=
  (List.prefix_iff_eq_take.mp (List.takeWhile_prefix _)).symm

/-- A string that runs into the place of a write goes on with the copied text. -/
theorem str_strcpy_cut {b b' : Block n} {off k : ℕ} {s : List UInt8} (hs : IsText s)
    (h : b.strcpy off s = .ok b') (hk : k ≤ off) (hrun : off ≤ k + (b.str k).length) :
    b'.str k = (b.str k).take (off - k) ++ s := by
  have hdrop := drop_poke_below h hk
  have htake : (b.bytes.drop k).take (off - k) = (b.str k).take (off - k) := by
    rw [← take_str b k, List.take_take, Nat.min_eq_left (by omega)]
  have htext : IsText ((b.str k).take (off - k)) := fun h0 =>
    isText_cstr (b.bytes.drop k) (List.mem_of_mem_take h0)
  unfold str at hdrop ⊢
  rw [hdrop, htake, cstr_append htext, List.append_assoc, List.singleton_append,
    cstr_append_zero hs]
  rfl

/-- The appended text stands behind the old one. -/
theorem str_strcat {b b' : Block n} {off : ℕ} {s : List UInt8} (hs : IsText s)
    (h : b.strcat off s = .ok b') : b'.str off = b.str off ++ s := by
  have hdrop := drop_poke_below h (Nat.le_add_right off (b.str off).length)
  rw [show off + (b.str off).length - off = (b.str off).length from by omega,
    take_str] at hdrop
  unfold str at hdrop ⊢
  rw [hdrop, ← List.append_assoc, ← List.append_assoc, List.append_assoc _ [0],
    List.singleton_append, cstr_append_zero]
  exact isText_append.mpr ⟨isText_cstr _, hs⟩

/-- Two writes, the second one on the NUL of the first, are one. -/
theorem poke_poke {b b' : Block n} {off : ℕ} {s t : List UInt8}
    (h : b.poke off (s ++ [0]) = .ok b') :
    b'.poke (off + s.length) (t ++ [0]) = b.poke off (s ++ t ++ [0]) := by
  obtain ⟨hle, hbytes⟩ := poke_eq_ok_iff.mp h
  by_cases hroom : off + (s ++ t ++ [0]).length ≤ n
  · simp only [List.length_append, List.length_singleton] at hle hroom
    have hjoin : off + (s ++ t ++ [0]).length ≤ n := by
      simp only [List.length_append, List.length_singleton]
      omega
    obtain ⟨c, hc, hcbytes⟩ := poke_eq_ok (b := b) hjoin
    rw [hc, poke_eq_ok_iff]
    refine ⟨by simp only [List.length_append, List.length_singleton]; omega, ?_⟩
    have hoff : (b.bytes.take off ++ s).length = off + s.length := by
      rw [List.length_append, List.length_take, b.length_bytes]
      omega
    have htake : b'.bytes.take (off + s.length) = b.bytes.take off ++ s := by
      rw [hbytes, ← List.append_assoc, List.append_assoc, List.take_left' hoff]
    have hdrop := drop_poke_above h (k := off + s.length + (t ++ [0]).length)
      (by simp only [List.length_append, List.length_singleton]; omega)
    rw [hcbytes, htake, hdrop]
    simp only [List.append_assoc, List.length_append, List.length_singleton]
    congr 4
    congr 1
    omega
  · have hlong : n < off + s.length + (t ++ [0]).length := by
      simp only [List.length_append, List.length_singleton] at hroom ⊢
      omega
    rw [poke_eq_error hlong, poke_eq_error (Nat.lt_of_not_le hroom)]

/-- Two texts appended one after the other are their concatenation appended. -/
theorem strcat_strcat (b : Block n) (off : ℕ) {s : List UInt8} (hs : IsText s)
    (t : List UInt8) :
    (b.strcat off s >>= fun b => b.strcat off t) = b.strcat off (s ++ t) := by
  cases h : b.strcat off s with
  | ok b' =>
      rw [ok_bind, strcat, str_strcat hs h, List.length_append, ← Nat.add_assoc]
      exact poke_poke h
  | error e =>
      have hroom : n < off + (b.str off).length + (s ++ [0]).length := by
        by_contra hle
        obtain ⟨b', hb', -⟩ := poke_eq_ok (b := b) (Nat.le_of_not_lt hle)
        rw [strcat, hb'] at h
        cases h
      rw [strcat, poke_eq_error hroom] at h
      cases h
      rw [error_bind, strcat, poke_eq_error]
      simp only [List.length_append, List.length_singleton] at hroom ⊢
      omega

/-- A string that ends inside the object can be read. -/
theorem readStr_eq {b : Block n} {off : ℕ} (h : off + (b.str off).length < n) :
    b.readStr off = .ok (b.str off) :=
  if_pos (mem_drop_iff.mpr h)

theorem readStr_eq_ok_iff {b : Block n} {off : ℕ} {s : List UInt8} :
    b.readStr off = .ok s ↔ off + (b.str off).length < n ∧ b.str off = s := by
  unfold readStr
  rw [← mem_drop_iff]
  split
  · next h => simp [h]
  · next h => simp [h]

/-- A text with its NUL behind it can be read. -/
theorem readStr_of_drop {b : Block n} {off : ℕ} {text rest : List UInt8} (htext : IsText text)
    (h : b.bytes.drop off = text ++ 0 :: rest) : b.readStr off = .ok text := by
  have hstr : b.str off = text := by
    unfold str
    rw [h, cstr_append_zero htext]
  unfold readStr
  rw [if_pos (by rw [h]; simp), hstr]

/-- A NUL written into a string cuts it off. -/
theorem exists_cut {b : Block n} {s t : List UInt8} (h : b.readStr 0 = .ok (s ++ t)) :
    ∃ b', b.poke s.length [0] = .ok b' ∧ b'.readStr 0 = .ok s := by
  obtain ⟨hroom, hstr⟩ := readStr_eq_ok_iff.mp h
  have htext : IsText (s ++ t) := hstr ▸ isText_cstr _
  rw [hstr, List.length_append] at hroom
  have hle : s.length + [(0 : UInt8)].length ≤ n := by
    rw [List.length_singleton]
    omega
  obtain ⟨b', hb', hbytes⟩ := poke_eq_ok (b := b) hle
  have htake : b.bytes.take s.length = s := by
    have hpre : s ++ t <+: b.bytes := hstr ▸ List.takeWhile_prefix _
    obtain ⟨rest, hrest⟩ := hpre
    rw [← hrest, List.append_assoc, List.take_left]
  have hcut : b'.str 0 = s := by
    unfold str
    rw [List.drop_zero, hbytes, htake, List.append_assoc, List.singleton_append,
      cstr_append_zero (isText_append.mp htext).1]
  exact ⟨b', hb', readStr_eq_ok_iff.mpr ⟨by rw [hcut]; omega, hcut⟩⟩

/-- A string that fits is read back. -/
theorem exists_strcpy {b : Block n} {s : List UInt8} (hs : IsText s) (h : s.length < n) :
    ∃ b', b.strcpy 0 s = .ok b' ∧ b'.readStr 0 = .ok s := by
  obtain ⟨b', hb'⟩ := strcpy_eq_ok (b := b) (show 0 + s.length + 1 ≤ n by omega)
  have hstr := str_strcpy_self hs hb'
  exact ⟨b', hb', readStr_eq_ok_iff.mpr ⟨by rw [hstr]; omega, hstr⟩⟩

/-- `strcat` puts a text behind the string, or has no room for it. -/
theorem strcat_cases (b : Block n) {s : List UInt8} (hs : IsText s) :
    ((b.str 0).length + s.length < n ∧ ∃ b', b.strcat 0 s = .ok b' ∧ b'.str 0 = b.str 0 ++ s) ∨
    (n ≤ (b.str 0).length + s.length ∧ b.strcat 0 s = .error .write) := by
  by_cases hroom : (b.str 0).length + s.length < n
  · obtain ⟨b', hb'⟩ := strcpy_eq_ok (b := b)
      (show 0 + (b.str 0).length + s.length + 1 ≤ n by omega)
    rw [← strcat_eq] at hb'
    exact Or.inl ⟨hroom, b', hb', str_strcat hs hb'⟩
  · refine Or.inr ⟨by omega, ?_⟩
    rw [strcat_eq, strcpy_eq_error (by omega)]

/-- Appending below and above a place commutes when the lower text stays below it. -/
theorem strcat_comm (b : Block n) {o₁ o₂ : ℕ} {s₁ s₂ : List UInt8}
    (h : o₁ + (b.str o₁).length + s₁.length < o₂) :
    (b.strcat o₁ s₁ >>= fun b => b.strcat o₂ s₂) = b.strcat o₂ s₂ >>= fun b => b.strcat o₁ s₁ := by
  have hlow : (b.strcat o₁ s₁ >>= fun b => b.strcat o₂ s₂)
      = b.strcat o₁ s₁ >>= fun b' => b'.poke (o₂ + (b.str o₂).length) (s₂ ++ [0]) := by
    cases hb : b.strcat o₁ s₁ with
    | error e => rfl
    | ok b' =>
        rw [ok_bind, ok_bind, strcat, str_poke_above hb (by
          rw [List.length_append, List.length_singleton]
          omega)]
  have hhigh : (b.strcat o₂ s₂ >>= fun b => b.strcat o₁ s₁)
      = b.strcat o₂ s₂ >>= fun b' => b'.poke (o₁ + (b.str o₁).length) (s₁ ++ [0]) := by
    cases hb : b.strcat o₂ s₂ with
    | error e => rfl
    | ok b' => rw [ok_bind, ok_bind, strcat, str_poke_below hb (by omega)]
  rw [hlow, hhigh]
  refine poke_comm b ?_
  rw [List.length_append, List.length_singleton]
  omega

@[simp] theorem str_zero (off : ℕ) : (zero n).str off = [] := by
  unfold str zero cstr
  rw [List.drop_replicate]
  cases n - off <;> simp [List.replicate]

/-- Texts put together by `strcat` in an object of `size` bytes that is zero before. -/
def catAll (size : ℕ) (parts : List (List UInt8)) : Except Fault (Block size) :=
  parts.foldlM (fun b s => b.strcat 0 s) (zero size)

theorem foldlM_strcat (b : Block n) (off : ℕ) {parts : List (List UInt8)}
    (h : ∀ s ∈ parts, IsText s) {t : List UInt8} (ht : IsText t) :
    (b.strcat off t >>= fun b => parts.foldlM (fun b s => b.strcat off s) b)
      = b.strcat off (t ++ parts.flatten) := by
  induction parts generalizing t with
  | nil =>
      rw [List.flatten_nil, List.append_nil]
      cases b.strcat off t <;> rfl
  | cons s parts ih =>
      have hs := h s List.mem_cons_self
      rw [List.flatten_cons, ← List.append_assoc,
        ← ih (fun x hx => h x (List.mem_cons_of_mem _ hx)) (isText_append.mpr ⟨ht, hs⟩),
        ← strcat_strcat _ _ ht, bind_assoc]
      rfl

theorem isText_flatten {parts : List (List UInt8)} (h : ∀ s ∈ parts, IsText s) :
    IsText parts.flatten := by
  intro hm
  obtain ⟨x, hx, hmx⟩ := List.mem_flatten.mp hm
  exact h x hx hmx

/-- Putting texts together is a single copy of all of them. -/
theorem catAll_cons {size : ℕ} {s : List UInt8} {parts : List (List UInt8)}
    (h : ∀ x ∈ s :: parts, IsText x) :
    catAll size (s :: parts) = (zero size).strcpy 0 (s :: parts).flatten := by
  obtain ⟨hs, hparts⟩ := List.forall_mem_cons.mp h
  have hall := foldlM_strcat (zero size) 0 hparts hs
  rw [strcat_eq _ _ (s ++ parts.flatten), str_zero] at hall
  exact hall

/-- Texts that fit are put together. -/
theorem catAll_eq {size : ℕ} {parts : List (List UInt8)} (h : ∀ s ∈ parts, IsText s)
    (hlen : parts.flatten.length < size) :
    ∃ b, catAll size parts = .ok b ∧ b.str 0 = parts.flatten := by
  cases parts with
  | nil => exact ⟨zero size, rfl, str_zero 0⟩
  | cons s parts =>
      obtain ⟨b, hb⟩ : ∃ b, (zero size).strcpy 0 (s :: parts).flatten = .ok b :=
        strcpy_eq_ok (by omega)
      exact ⟨b, (catAll_cons h).trans hb, str_strcpy_self (isText_flatten h) hb⟩

/-- What has been put together is the texts. -/
theorem str_catAll {size : ℕ} {parts : List (List UInt8)} (h : ∀ s ∈ parts, IsText s)
    {b : Block size} (hb : catAll size parts = .ok b) : b.str 0 = parts.flatten := by
  cases parts with
  | nil =>
      cases hb
      exact str_zero 0
  | cons s parts =>
      rw [catAll_cons h] at hb
      exact str_strcpy_self (isText_flatten h) hb

/-! ## `strncpy` over a whole object -/

/-- What `strncpy` of the text `s` with the size of the object makes of it: the text cut
off, or filled up with NULs. -/
def strncpy (n : ℕ) (s : List UInt8) : Block n :=
  ⟨(s ++ List.replicate n 0).take n, by simp⟩

/-- A text shorter than the object is terminated in it. -/
theorem str_strncpy {s : List UInt8} (hs : IsText s) (hlen : s.length < n) :
    (strncpy n s).str 0 = s := by
  unfold str strncpy
  show cstr ((s ++ List.replicate n 0).take n) = s
  rw [List.take_append, List.take_of_length_le (Nat.le_of_lt hlen), List.take_replicate]
  obtain ⟨k, hk⟩ : ∃ k, min (n - s.length) n = k + 1 :=
    Nat.exists_eq_add_one_of_ne_zero (by omega)
  rw [hk, List.replicate_succ, cstr_append_zero hs]

end Block

/-- A C string that fits an array of `n` characters. -/
structure ShortText (n : ℕ) where
  bytes : List UInt8
  isText : IsText bytes
  length_lt : bytes.length < n

/-- Such a text is its bytes. -/
theorem ShortText.eq_of_bytes {n : ℕ} {s t : ShortText n} (h : s.bytes = t.bytes) : s = t := by
  cases s
  cases t
  cases h
  rfl

instance ShortText.decidableEq (n : ℕ) : DecidableEq (ShortText n) := fun _ _ =>
  decidable_of_iff _ ⟨ShortText.eq_of_bytes, congrArg ShortText.bytes⟩

theorem ShortText.str_strncpy {n : ℕ} (s : ShortText n) :
    (Block.strncpy n s.bytes).str 0 = s.bytes :=
  Block.str_strncpy s.isText s.length_lt

end CMem
