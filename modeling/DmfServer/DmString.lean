/-
# Strings with their length

`dm_string.c`: a `dm_string` is a C string in memory of its own, and its length as an `int`.
Some functions go by the length and some by the NUL, and every one of them makes a new string.

`malloc` gives memory with anything in it (`fresh`), and `NULL` for a length that has become
negative.  `DmString.Holds` is what the functions keep: the string is the text, and the length
is the length of the text.
-/
import DmfServer.Block
import Mathlib.Data.Nat.Digits.Lemmas
import Mathlib.Data.List.DropRight

open CMem

/-- `dm_string`, with the memory behind `str`. -/
structure DmString where
  size : ℕ
  str : Block size
  len : ℤ

section
variable {n : ℕ} (b : Block n)

/-- `str[i]`, for an index that may be negative. -/
def strAt (i : ℤ) : Except Fault UInt8 :=
  if 0 ≤ i then arrayAt b.bytes i.toNat else .error .read

/-- The C string at an offset that may be negative. -/
def readAt (off : ℤ) : Except Fault (List UInt8) :=
  if 0 ≤ off then b.readStr off.toNat else .error .read

/-- Bytes written at an offset that may be negative. -/
def writeAt (off : ℤ) (src : List UInt8) : Except Fault (Block n) :=
  if 0 ≤ off then b.poke off.toNat src else .error .write

/-- `strstr(str + off, needle)`, as an offset. -/
def findAt (off : ℤ) (needle : List UInt8) : Except Fault (Option ℤ) :=
  (readAt b off).map fun hay =>
    (strstr hay needle).map fun rest => off + ((hay.length : ℤ) - rest.length)

/-- A loop that sets the bytes `0` to `count - 1`. -/
def fillLoop (byte : ℕ → Except Fault UInt8) (count : ℕ) : Except Fault (Block n) :=
  (List.range count).foldlM (fun b i => do b.poke i [← byte i]) b

end

/-- `%d` of a number that is not negative. -/
def decimal (n : ℕ) : List UInt8 :=
  if n = 0 then [48] else (Nat.digits 10 n).reverse.map fun d => 48 + UInt8.ofNat d

/-- `%d`. -/
def decimalInt (num : ℤ) : List UInt8 :=
  if num < 0 then Ascii.dash :: decimal (-num).toNat else decimal num.toNat

section
variable (fresh : (n : ℕ) → Block n)

/-- `malloc(sizeof(char) * (len + 1))`. -/
def mallocStr (len : ℤ) : Except Fault (Σ n, Block n) :=
  if toInt (len + 1) < 0 then .error .null
  else .ok ⟨(toInt (len + 1)).toNat, fresh _⟩

/-- `dm_str`. -/
def dmStr (s : List UInt8) : Except Fault DmString := do
  let ⟨size, str⟩ ← mallocStr fresh (toInt s.length)
  let str ← str.strcpy 0 s
  .ok ⟨size, str, toInt s.length⟩

/-- `dm_str_cat`. -/
def dmStrCat (s₁ s₂ : DmString) : Except Fault DmString := do
  let ⟨size, str⟩ ← mallocStr fresh (toInt (s₁.len + s₂.len))
  let str ← str.strcpy 0 (← readAt s₁.str 0)
  let str ← str.strcat 0 (← readAt s₂.str 0)
  .ok ⟨size, str, toInt (s₁.len + s₂.len)⟩

/-- A new string of length `len` whose first `count` bytes a loop sets. -/
def filled (len count : ℤ) (byte : ℕ → Except Fault UInt8) : Except Fault DmString := do
  let ⟨size, str⟩ ← mallocStr fresh len
  let str ← fillLoop str byte count.toNat
  let str ← writeAt str len [0]
  .ok ⟨size, str, len⟩

/-- `dm_str_rev`. -/
def dmStrRev (s : DmString) : Except Fault DmString :=
  filled fresh s.len s.len fun i => strAt s.str (s.len - i - 1)

/-- `c >= 'a' && c <= 'z'` made upper case, and the other way round. -/
def upper (c : UInt8) : UInt8 := if 97 ≤ c ∧ c ≤ 122 then c - 32 else c
@[inherit_doc upper] def lower (c : UInt8) : UInt8 := if 65 ≤ c ∧ c ≤ 90 then c + 32 else c

/-- `dm_str_up`. -/
def dmStrUp (s : DmString) : Except Fault DmString :=
  filled fresh s.len s.len fun i => (strAt s.str i).map upper

/-- `dm_str_low`. -/
def dmStrLow (s : DmString) : Except Fault DmString :=
  filled fresh s.len s.len fun i => (strAt s.str i).map lower

/-- `dm_str_sub`. -/
def dmStrSub (s : DmString) (start end_ : ℤ) : Except Fault DmString :=
  filled fresh (toInt (end_ - start + 1)) (end_ - start + 1) fun i => strAt s.str (start + i)

/-- `dm_str_tostr`. -/
def dmStrTostr (num : ℤ) : Except Fault DmString := do
  let buffer ← (fresh 20).strcpy 0 (decimalInt num)
  dmStr fresh (← readAt buffer 0)

/-- The first loop of `dm_str_trim`. -/
def trimLeft (s : DmString) (right left : ℤ) : Except Fault ℤ :=
  if left ≤ right then do
    if (← strAt s.str left) = Ascii.space then trimLeft s right (left + 1) else .ok left
  else .ok left
termination_by (right + 1 - left).toNat
decreasing_by omega

/-- The second loop of `dm_str_trim`. -/
def trimRight (s : DmString) (left right : ℤ) : Except Fault ℤ :=
  if left ≤ right then do
    if (← strAt s.str right) = Ascii.space then trimRight s left (right - 1) else .ok right
  else .ok right
termination_by (right + 1 - left).toNat
decreasing_by omega

/-- `dm_str_trim`. -/
def dmStrTrim (s : DmString) : Except Fault DmString := do
  let left ← trimLeft s (s.len - 1) 0
  let right ← trimRight s left (s.len - 1)
  dmStrSub fresh s left right

/-- The loop of `dm_str_replace`; `ptr` is the place that `strstr` has found. -/
def replaceLoop {n : ℕ} (oldStr newStr : List UInt8) :
    ℕ → Block n → ℤ → Option ℤ → Except Fault (Block n × ℤ)
  | 0, _, _, _ => .error .loop
  | _ + 1, str, len, none => .ok (str, len)
  | fuel + 1, str, len, some ptr => do
      let oldLen := toInt oldStr.length
      let newLen := toInt newStr.length
      let rest ← readAt str (ptr + oldLen)
      let str ← writeAt str (ptr + newLen) (rest ++ [0])
      if newLen < 0 then .error .size
      else do
        let str ← writeAt str ptr (newStr.take newLen.toNat)
        let ptr ← findAt str (ptr + newLen) oldStr
        replaceLoop oldStr newStr fuel str (toInt (len + (newLen - oldLen))) ptr

/-- `dm_str_replace`, for a number of rounds that `fuel` bounds. -/
def dmStrReplace (fuel : ℕ) (s : DmString) (oldStr newStr : List UInt8) :
    Except Fault DmString := do
  let result ← dmStr fresh (← readAt s.str 0)
  let ptr ← findAt result.str 0 oldStr
  let (str, len) ← replaceLoop oldStr newStr fuel result.str result.len ptr
  .ok ⟨result.size, str, len⟩

end

/-! ## What the functions keep -/

/-- The string is `text`, and its length is the length of `text`. -/
structure DmString.Holds (s : DmString) (text : List UInt8) : Prop where
  str : s.str.readStr 0 = .ok text
  len : s.len = text.length
  room : text.length + 1 < 2 ^ 31

section
variable {n : ℕ} {b : Block n} {text : List UInt8}

/-- A string that can be read is a text, with its NUL behind it. -/
theorem exists_of_readStr (h : b.readStr 0 = .ok text) :
    IsText text ∧ ∃ junk, b.bytes = text ++ 0 :: junk := by
  obtain ⟨hroom, rfl⟩ := Block.readStr_eq_ok_iff.mp h
  obtain ⟨junk, hjunk⟩ := exists_eq_cstr_append (Block.mem_drop_iff.mpr hroom)
  rw [List.drop_zero] at hjunk
  refine ⟨isText_cstr _, junk, ?_⟩
  rw [hjunk]
  unfold Block.str
  rw [List.drop_zero, ← hjunk]

/-- A text with its NUL behind it can be read. -/
theorem readStr_append (front : List UInt8) (htext : IsText text) {junk : List UInt8}
    (h : b.bytes = front ++ (text ++ 0 :: junk)) : b.readStr front.length = .ok text := by
  apply Block.readStr_of_drop htext
  rw [h, List.drop_left]

theorem readAt_append (front : List UInt8) (htext : IsText text) {junk : List UInt8}
    (h : b.bytes = front ++ (text ++ 0 :: junk)) : readAt b (front.length : ℤ) = .ok text := by
  unfold readAt
  rw [if_pos (Int.natCast_nonneg _), Int.toNat_natCast, readStr_append front htext h]

/-- Bytes written over as many. -/
theorem poke_append {a m c : List UInt8} (src : List UInt8) (h : b.bytes = a ++ (m ++ c))
    (hlen : src.length = m.length) :
    ∃ b', b.poke a.length src = .ok b' ∧ b'.bytes = a ++ (src ++ c) := by
  have hle : a.length + src.length ≤ n := by
    rw [← b.length_bytes, h, List.length_append, List.length_append]
    omega
  obtain ⟨b', hpoke, hbytes⟩ := Block.poke_eq_ok (b := b) hle
  refine ⟨b', hpoke, ?_⟩
  rw [hbytes, h, List.take_left, hlen, ← List.append_assoc a m c, ← List.length_append,
    List.drop_left, List.append_assoc]

/-- A loop over the first bytes of an object. -/
theorem fillLoop_eq {byte : ℕ → Except Fault UInt8} (f : ℕ → UInt8) {count : ℕ}
    (hbyte : ∀ i < count, byte i = .ok (f i)) (hroom : count ≤ n) :
    ∃ b', fillLoop b byte count = .ok b' ∧
      b'.bytes = (List.range count).map f ++ b.bytes.drop count := by
  induction count with
  | zero => exact ⟨b, rfl, rfl⟩
  | succ count ih =>
      obtain ⟨b₁, hloop, hbytes⟩ := ih (fun i hi => hbyte i (Nat.lt_succ_of_lt hi)) (by omega)
      have hlen : count < b.bytes.length := by rw [b.length_bytes]; omega
      have hsplit : b₁.bytes
          = (List.range count).map f ++ ([b.bytes[count]] ++ b.bytes.drop (count + 1)) := by
        rw [hbytes, List.drop_eq_getElem_cons hlen]
        rfl
      obtain ⟨b₂, hpoke, hbytes₂⟩ := poke_append [f count] hsplit rfl
      rw [List.length_map, List.length_range] at hpoke
      refine ⟨b₂, ?_, ?_⟩
      · unfold fillLoop at hloop ⊢
        rw [List.range_succ, List.foldlM_append, hloop, ok_bind, List.foldlM_cons,
          hbyte count (Nat.lt_succ_self count), ok_bind, hpoke]
        rfl
      · rw [hbytes₂, List.range_succ, List.map_append, List.append_assoc]
        rfl

end

section
variable {s : DmString} {text : List UInt8}

theorem DmString.Holds.isText (h : s.Holds text) : IsText text := (exists_of_readStr h.str).1

theorem DmString.Holds.readAt_eq (h : s.Holds text) : readAt s.str 0 = .ok text := h.str

theorem DmString.Holds.strAt_eq (h : s.Holds text) {i : ℤ} {c : UInt8} (h0 : 0 ≤ i)
    (hc : text[i.toNat]? = some c) : strAt s.str i = .ok c := by
  obtain ⟨-, junk, hbytes⟩ := exists_of_readStr h.str
  have hlt := (List.getElem?_eq_some_iff.mp hc).1
  unfold strAt arrayAt
  rw [if_pos h0, hbytes, List.getElem?_append_left hlt, hc]

end

section
variable (fresh : (n : ℕ) → Block n)

/-- Memory for a length that an `int` has room for. -/
theorem exists_mallocStr {k : ℕ} (h : k + 1 < 2 ^ 31) :
    ∃ b : Block (k + 1), mallocStr fresh (k : ℤ) = .ok ⟨k + 1, b⟩ := by
  have hint : toInt ((k : ℤ) + 1) = ((k + 1 : ℕ) : ℤ) := by
    rw [toInt_of_range (by omega) (by omega)]
    rfl
  unfold mallocStr
  rw [hint, if_neg (by omega), Int.toNat_natCast]
  exact ⟨_, rfl⟩

/-- What `malloc` gives has a size that is an `int`. -/
theorem size_lt_of_mallocStr {len : ℤ} {m : Σ n, Block n} (h : mallocStr fresh len = .ok m) :
    m.1 < 2 ^ 31 := by
  unfold mallocStr at h
  split at h
  · cases h
  · obtain rfl := Except.ok.inj h
    have hlt := Int.bmod_lt (x := len + 1) (m := 2 ^ 32) (by decide)
    show (toInt (len + 1)).toNat < 2 ^ 31
    unfold toInt
    omega

/-- A text put behind nothing else in memory that has room for it and no more. -/
theorem exists_strcpy_whole {s : List UInt8} (b : Block (s.length + 1)) :
    ∃ b', b.strcpy 0 s = .ok b' ∧ b'.bytes = s ++ [0] := by
  have hle : 0 + (s ++ [(0 : UInt8)]).length ≤ s.length + 1 := by simp
  obtain ⟨b', hb', hbytes⟩ := Block.poke_eq_ok (b := b) hle
  refine ⟨b', hb', ?_⟩
  rw [hbytes, List.take_zero, List.nil_append, Nat.zero_add,
    List.drop_of_length_le (by rw [b.length_bytes]; simp), List.append_nil]

/-- `dm_str` of a text for whose length an `int` has room. -/
theorem dmStr_eq (text : List UInt8) (h : text.length + 1 < 2 ^ 31) :
    ∃ b : Block (text.length + 1),
      dmStr fresh text = .ok ⟨text.length + 1, b, text.length⟩ ∧ b.bytes = text ++ [0] := by
  obtain ⟨b, hmalloc⟩ := exists_mallocStr fresh h
  obtain ⟨b', hcopy, hbytes⟩ := exists_strcpy_whole b
  refine ⟨b', ?_, hbytes⟩
  unfold dmStr
  rw [toInt_of_range (by omega) (by omega), hmalloc, ok_bind]
  dsimp only
  rw [hcopy, ok_bind]

/-- A string that was made has room for its length. -/
theorem length_lt_of_dmStr {text : List UInt8} {s : DmString} (h : dmStr fresh text = .ok s) :
    text.length + 1 < 2 ^ 31 := by
  obtain ⟨⟨size, b⟩, hmalloc, hrest⟩ := exists_of_bind h
  obtain ⟨b', hcopy, -⟩ := exists_of_bind hrest
  have hsize := size_lt_of_mallocStr fresh hmalloc
  have hle := Block.le_of_strcpy hcopy
  dsimp only at hsize
  omega

/-- `dm_str` makes a string of the text. -/
theorem holds_of_dmStr {text : List UInt8} {s : DmString} (htext : IsText text)
    (h : dmStr fresh text = .ok s) : s.Holds text := by
  have hroom := length_lt_of_dmStr fresh h
  obtain ⟨b, hrun, hbytes⟩ := dmStr_eq fresh text hroom
  obtain rfl := Except.ok.inj (hrun.symm.trans h)
  exact ⟨readStr_append [] htext hbytes, rfl, hroom⟩

/-- `dm_str_cat` puts two strings together. -/
theorem DmString.Holds.cat {s₁ s₂ s : DmString} {t₁ t₂ : List UInt8} (h₁ : s₁.Holds t₁)
    (h₂ : s₂.Holds t₂) (h : dmStrCat fresh s₁ s₂ = .ok s) : s.Holds (t₁ ++ t₂) := by
  obtain ⟨⟨size, b⟩, hmalloc, hrest⟩ := exists_of_bind h
  dsimp only at hrest
  rw [h₁.readAt_eq, ok_bind] at hrest
  obtain ⟨b₁, hcopy, hrest⟩ := exists_of_bind hrest
  rw [h₂.readAt_eq, ok_bind] at hrest
  obtain ⟨b₂, happend, hrest⟩ := exists_of_bind hrest
  obtain rfl := Except.ok.inj hrest
  have hsize := size_lt_of_mallocStr fresh hmalloc
  have hstr₁ : b₁.str 0 = t₁ := Block.str_strcpy_self h₁.isText hcopy
  have hstr₂ : b₂.str 0 = t₁ ++ t₂ := by
    rw [Block.str_strcat h₂.isText happend, hstr₁]
  have hle := Block.le_of_strcpy (Block.strcat_eq b₁ 0 t₂ ▸ happend)
  rw [hstr₁] at hle
  dsimp only at hsize
  have hroom : (t₁ ++ t₂).length + 1 < 2 ^ 31 := by
    rw [List.length_append]
    omega
  refine ⟨Block.readStr_eq_ok_iff.mpr ⟨?_, hstr₂⟩, ?_, hroom⟩
  · show 0 + (b₂.str 0).length < size
    rw [hstr₂, List.length_append]
    omega
  · show toInt (s₁.len + s₂.len) = _
    rw [h₁.len, h₂.len, ← Nat.cast_add, ← List.length_append,
      toInt_of_range (by omega) (by omega)]

/-- A new string that a loop has set, byte by byte, to a text. -/
theorem holds_filled {byte : ℕ → Except Fault UInt8} {text : List UInt8} (htext : IsText text)
    (hroom : text.length + 1 < 2 ^ 31)
    (hbyte : ∀ i, ∀ (hi : i < text.length), byte i = .ok text[i]) :
    ∃ s, filled fresh text.length text.length byte = .ok s ∧ s.Holds text := by
  obtain ⟨b, hmalloc⟩ := exists_mallocStr fresh hroom
  have hbyte' : ∀ i < text.length, byte i = .ok (text.getD i 0) := by
    intro i hi
    rw [hbyte i hi, List.getD_eq_getElem?_getD, List.getElem?_eq_getElem hi, Option.getD_some]
  obtain ⟨b₁, hloop, hbytes₁⟩ := fillLoop_eq (b := b) _ hbyte' (Nat.le_succ _)
  have hall : (List.range text.length).map (fun i => text.getD i 0) = text := by
    refine List.ext_getElem (by simp) fun i hi hi' => ?_
    rw [List.getElem_map, List.getElem_range, List.getD_eq_getElem?_getD,
      List.getElem?_eq_getElem hi', Option.getD_some]
  have hlast : (b.bytes.drop text.length).length = [(0 : UInt8)].length := by
    rw [List.length_drop, b.length_bytes, List.length_singleton]
    omega
  rw [hall, ← List.append_nil (b.bytes.drop text.length)] at hbytes₁
  obtain ⟨b₂, hpoke, hbytes₂⟩ := poke_append [0] hbytes₁ hlast.symm
  refine ⟨⟨text.length + 1, b₂, text.length⟩, ?_, readStr_append [] htext hbytes₂,
    rfl, hroom⟩
  unfold filled
  rw [hmalloc, ok_bind]
  dsimp only
  rw [Int.toNat_natCast, hloop, ok_bind]
  unfold writeAt
  rw [if_pos (Int.natCast_nonneg _), Int.toNat_natCast, hpoke, ok_bind]

section
variable {s : DmString} {text : List UInt8} (h : s.Holds text)
include h

/-- `dm_str_rev` turns the text round. -/
theorem DmString.Holds.rev : ∃ r, dmStrRev fresh s = .ok r ∧ r.Holds text.reverse := by
  have htext : IsText text.reverse := fun hm => h.isText (List.mem_reverse.mp hm)
  have hlen : text.reverse.length = text.length := List.length_reverse
  unfold dmStrRev
  rw [h.len, ← hlen]
  refine holds_filled fresh htext (hlen ▸ h.room) fun i hi => ?_
  rw [hlen] at hi ⊢
  refine h.strAt_eq (by omega) ?_
  rw [show ((text.length : ℤ) - i - 1).toNat = text.length - 1 - i from by omega,
    List.getElem_reverse]
  exact List.getElem?_eq_getElem _

/-- A function that goes over the string and changes every byte. -/
theorem DmString.Holds.map {f : UInt8 → UInt8} (hf : ∀ c, c ≠ 0 → f c ≠ 0) :
    ∃ r, filled fresh s.len s.len (fun i => (strAt s.str i).map f) = .ok r ∧
      r.Holds (text.map f) := by
  have htext : IsText (text.map f) := by
    intro hm
    obtain ⟨c, hc, h0⟩ := List.mem_map.mp hm
    exact hf c (fun hzero => h.isText (hzero ▸ hc)) h0
  have hlen : (text.map f).length = text.length := List.length_map f
  rw [h.len, ← hlen]
  refine holds_filled fresh htext (hlen ▸ h.room) fun i hi => ?_
  rw [hlen] at hi
  have hbyte : strAt s.str (i : ℤ) = .ok text[i] :=
    h.strAt_eq (Int.natCast_nonneg i) (by rw [Int.toNat_natCast]; exact List.getElem?_eq_getElem hi)
  rw [hbyte, List.getElem_map]
  rfl

theorem DmString.Holds.up : ∃ r, dmStrUp fresh s = .ok r ∧ r.Holds (text.map upper) := by
  refine h.map fresh fun c hc h0 => ?_
  unfold upper at h0
  split at h0
  · next hrange =>
    have hlow := UInt8.le_iff_toNat_le.mp hrange.1
    have hsub := UInt8.toNat_sub_of_le c 32 (UInt8.le_trans (by decide) hrange.1)
    rw [h0] at hsub
    change 97 ≤ c.toNat at hlow
    change 0 = c.toNat - 32 at hsub
    omega
  · exact hc h0

theorem DmString.Holds.low : ∃ r, dmStrLow fresh s = .ok r ∧ r.Holds (text.map lower) := by
  refine h.map fresh fun c hc h0 => ?_
  unfold lower at h0
  split at h0
  · next hrange =>
    have hhigh := UInt8.le_iff_toNat_le.mp hrange.2
    have hadd := UInt8.toNat_add c 32
    rw [h0] at hadd
    change c.toNat ≤ 90 at hhigh
    change 0 = (c.toNat + 32) % 256 at hadd
    omega
  · exact hc h0

/-- `dm_str_sub` of a part of the string, which may be empty. -/
theorem DmString.Holds.sub {start stop : ℕ} (hstart : start ≤ stop) (hstop : stop ≤ text.length) :
    ∃ r, dmStrSub fresh s start ((stop : ℤ) - 1) = .ok r ∧
      r.Holds ((text.take stop).drop start) := by
  have htext : IsText ((text.take stop).drop start) := fun hm =>
    h.isText (List.mem_of_mem_take (List.mem_of_mem_drop hm))
  have hlen : ((text.take stop).drop start).length = stop - start := by
    rw [List.length_drop, List.length_take, Nat.min_eq_left hstop]
  have hroom := h.room
  have hint : (stop : ℤ) - 1 - start + 1 = ((text.take stop).drop start).length := by
    rw [hlen]
    omega
  unfold dmStrSub
  rw [hint, toInt_of_range (by omega) (by omega)]
  refine holds_filled fresh htext (by omega) fun i hi => ?_
  rw [hlen] at hi
  refine h.strAt_eq (by omega) ?_
  rw [show ((start : ℤ) + i).toNat = start + i from by omega, List.getElem_drop,
    List.getElem_take]
  exact List.getElem?_eq_getElem _

/-! ## `dm_str_trim` -/

/-- The first loop goes over the spaces in front. -/
theorem DmString.Holds.trimLeft_eq (k left : ℕ) (hk : text.length - left = k) :
    trimLeft s (text.length - 1) left
      = .ok (left + ((text.drop left).takeWhile (· = Ascii.space)).length : ℕ) := by
  induction k generalizing left with
  | zero =>
      rw [trimLeft, if_neg (by omega), List.drop_of_length_le (by omega)]
      rfl
  | succ k ih =>
      have hlt : left < text.length := by omega
      have hbyte : strAt s.str (left : ℤ) = .ok text[left] :=
        h.strAt_eq (Int.natCast_nonneg left) (List.getElem?_eq_getElem hlt)
      rw [trimLeft, if_pos (by omega), hbyte, ok_bind, List.drop_eq_getElem_cons hlt]
      by_cases hspace : text[left] = Ascii.space
      · have hnext := ih (left + 1) (by omega)
        rw [if_pos hspace, List.takeWhile_cons_of_pos (by simpa using hspace), List.length_cons]
        rw [← Nat.cast_succ, hnext]
        congr 2
        omega
      · rw [if_neg hspace, List.takeWhile_cons_of_neg (by simpa using hspace)]
        rfl

/-- The second loop goes over the spaces behind. -/
theorem DmString.Holds.trimRight_eq {left stop : ℕ} (hle : left ≤ stop)
    (hstop : stop ≤ text.length) :
    ∃ stop' : ℕ, trimRight s left ((stop : ℤ) - 1) = .ok ((stop' : ℤ) - 1) ∧ left ≤ stop' ∧
      stop' ≤ stop ∧
      ((text.take stop).drop left).rdropWhile (· = Ascii.space) = (text.take stop').drop left := by
  induction stop, hle using Nat.le_induction with
  | base =>
      refine ⟨left, ?_, le_rfl, le_rfl, ?_⟩
      · rw [trimRight, if_neg (by omega)]
      · rw [List.drop_of_length_le (List.length_take_le _ _)]
        rfl
  | succ stop hle ih =>
      have hlt : stop < text.length := by omega
      have hbyte : strAt s.str ((stop : ℤ) + 1 - 1) = .ok text[stop] :=
        h.strAt_eq (by omega) (by
          rw [add_sub_cancel_right, Int.toNat_natCast]
          exact List.getElem?_eq_getElem hlt)
      have hsplit : (text.take (stop + 1)).drop left
          = (text.take stop).drop left ++ [text[stop]] := by
        rw [List.take_succ_eq_append_getElem hlt, List.drop_append_of_le_length (by
          rw [List.length_take]
          omega)]
      rw [Nat.cast_succ, trimRight, if_pos (by omega), hbyte, ok_bind, hsplit]
      by_cases hspace : text[stop] = Ascii.space
      · obtain ⟨stop', hloop, hleft, hle', htrim⟩ := ih (by omega)
        refine ⟨stop', ?_, hleft, by omega, ?_⟩
        · rw [if_pos hspace, add_sub_cancel_right, hloop]
        · rw [List.rdropWhile_concat_pos _ _ _ (by simpa using hspace), htrim]
      · refine ⟨stop + 1, ?_, by omega, le_rfl, ?_⟩
        · rw [if_neg hspace]
          rfl
        · rw [List.rdropWhile_concat_neg _ _ _ (by simpa using hspace), hsplit]

/-- `dm_str_trim` takes the spaces away from both ends. -/
theorem DmString.Holds.trim : ∃ r, dmStrTrim fresh s = .ok r ∧
    r.Holds ((text.dropWhile (· = Ascii.space)).rdropWhile (· = Ascii.space)) := by
  have hleft := h.trimLeft_eq _ 0 rfl
  rw [List.drop_zero, Nat.zero_add] at hleft
  have hsplit :=
    List.takeWhile_append_dropWhile (p := fun c => decide (c = Ascii.space)) (l := text)
  have hlen := congrArg List.length hsplit
  have hdrop := congrArg
    (List.drop (text.takeWhile fun c => decide (c = Ascii.space)).length) hsplit
  rw [List.drop_left] at hdrop
  rw [List.length_append] at hlen
  have hle : (text.takeWhile fun c => decide (c = Ascii.space)).length ≤ text.length := by omega
  obtain ⟨stop, hright, hge, hstop, htrim⟩ := h.trimRight_eq hle le_rfl
  rw [List.take_length, ← hdrop] at htrim
  obtain ⟨r, hsub, hholds⟩ := h.sub fresh hge hstop
  refine ⟨r, ?_, htrim ▸ hholds⟩
  unfold dmStrTrim
  rw [h.len]
  rw [show trimLeft s ((text.length : ℤ) - 1) 0 = _ from hleft, ok_bind, hright, ok_bind, hsub]

end

/-! ## `dm_str_tostr` -/

theorem length_decimal_le {n : ℕ} (h : n < 10 ^ 10) : (decimal n).length ≤ 10 := by
  unfold decimal
  split
  · decide
  · rw [List.length_map, List.length_reverse]
    exact (Nat.digits_length_le_iff (by decide) n).mpr h

theorem isText_decimal (n : ℕ) : IsText (decimal n) := by
  unfold decimal
  split
  · decide
  · intro hm
    obtain ⟨d, hd, h0⟩ := List.mem_map.mp hm
    have hlt : d < 10 := Nat.digits_lt_base (by decide) (List.mem_reverse.mp hd)
    have hdigit : ∀ d < 10, 48 + UInt8.ofNat d ≠ 0 := by decide
    exact hdigit d hlt h0

/-- The text of an `int` fits the buffer. -/
theorem decimalInt_spec {num : ℤ} (hlow : -2 ^ 31 ≤ num) (hhigh : num < 2 ^ 31) :
    IsText (decimalInt num) ∧ (decimalInt num).length ≤ 11 := by
  unfold decimalInt
  split
  · refine ⟨fun hm => ?_, ?_⟩
    · obtain h | h := List.mem_cons.mp hm
      · exact absurd h (by decide)
      · exact isText_decimal _ h
    · exact Nat.succ_le_succ (length_decimal_le (by omega))
  · exact ⟨isText_decimal _, (length_decimal_le (by omega)).trans (by decide)⟩

/-- `dm_str_tostr` makes a string of the number. -/
theorem exists_dmStrTostr {num : ℤ} (hlow : -2 ^ 31 ≤ num) (hhigh : num < 2 ^ 31) :
    ∃ r, dmStrTostr fresh num = .ok r ∧ r.Holds (decimalInt num) := by
  obtain ⟨htext, hlen⟩ := decimalInt_spec hlow hhigh
  obtain ⟨b, hcopy, hread⟩ := Block.exists_strcpy (b := fresh 20) htext (by omega)
  obtain ⟨b', hrun, hbytes⟩ := dmStr_eq fresh (decimalInt num) (by omega)
  refine ⟨⟨_, b', (decimalInt num).length⟩, ?_, readStr_append [] htext hbytes, rfl,
    by omega⟩
  unfold dmStrTostr
  rw [hcopy, ok_bind, show readAt b 0 = .ok (decimalInt num) from hread, ok_bind, hrun]

end
