/-
# Where a message ends

A client finds the end of a body by the `Content-Length` of the head (`res_row`) or by the
chunk of size 0 (`res_file_handle`).  `itoa` writes nothing for 0, so that an empty body has a
`Content-Length` without a number (`framed_resRow_iff`).  `feof` holds only after a `fread`
that has found the end of the file, so that a file of whole buffers has an empty chunk of its
own in front of the one that ends it (`sendsChunked_iff`).
-/
import DmfServer.HttpMessage
import DmfServer.ItoaDigits
import DmfServer.Release

open CMem

/-! ## Numbers -/

/-- `%x` prints the number. -/
theorem number_hex (n : ℕ) : Http.number 16 (hex n) = some n := by
  have hdigit : ∀ d < 16,
      Http.digitValue (UInt8.ofNat (Nat.digitChar d).toNat) = some d := by decide
  induction n using Nat.strong_induction_on with
  | _ n ih =>
      rw [hex, Nat.toDigits_eq_if (by decide)]
      split
      · next hlt =>
        have honly := Http.number_concat (.inl ⟨rfl, rfl⟩) (hdigit n hlt) hlt
        rwa [Nat.mul_zero, Nat.zero_add] at honly
      · next hle =>
        have hdiv : n / 16 < n := Nat.div_lt_self (by omega) (by decide)
        have hmod : n % 16 < 16 := Nat.mod_lt _ (by decide)
        have hlast := Http.number_concat (.inr (ih (n / 16) hdiv)) (hdigit _ hmod) hmod
        rw [Nat.div_add_mod] at hlast
        rwa [List.map_append]

theorem digitValue_digitChar : ∀ d < 16, Http.digitValue (digitChar d) = some d := by decide

/-- What digits are worth, one behind the other. -/
theorem value_digits {radix : ℕ} (hle : radix ≤ 16) {digits : List ℕ}
    (h : ∀ d ∈ digits, d < radix) :
    Http.value radix (digits.reverse.map digitChar) = Nat.ofDigits radix digits := by
  induction digits with
  | nil => rfl
  | cons d digits ih =>
      have hd : Http.digitValue (digitChar d) = some d :=
        digitValue_digitChar d ((h d List.mem_cons_self).trans_le hle)
      rw [List.reverse_cons, List.map_append, List.map_singleton, Http.value_concat,
        ih fun e he => h e (List.mem_cons_of_mem d he), hd, Nat.ofDigits_cons, Nat.add_comm]
      rfl

/-- A client reads a number that is written in the radix. -/
theorem Numeral.number {radix n : ℕ} {text : List UInt8} {digits : List ℕ}
    (h : Numeral radix n text digits) (hle : radix ≤ 16) : Http.number radix text = some n := by
  refine Http.number_eq_some_iff.mpr ⟨?_, fun c hc => ?_, ?_⟩
  · rw [h.text_eq, Ne, List.map_eq_nil_iff]
    exact h.ne_nil
  · rw [h.text_eq] at hc
    obtain ⟨d, hd, rfl⟩ := List.mem_map.mp hc
    rw [Http.isDigit, digitValue_digitChar d ((h.lt d hd).trans_le hle)]
    exact decide_eq_true (h.lt d hd)
  · have hvalue := value_digits hle fun d hd => h.lt d (List.mem_reverse.mp hd)
    rw [List.reverse_reverse, h.value] at hvalue
    rw [h.text_eq, hvalue]

/-- `itoa` writes every number that is not 0. -/
theorem number_itoa {n : ℕ} (hpos : 0 < n) (h : n < 10 ^ 100) :
    Http.number 10 (itoa n [] 10) = some n := by
  rw [itoa, if_neg (by decide), if_neg (by omega)]
  show Http.number 10 (itoaLoop 10 100 n).reverse = some n
  rw [itoaLoop_eq (by decide) (by decide) 100 h, ← List.map_reverse]
  exact (numeral_digits (by decide) hpos.ne').number (by decide)

theorem itoa_zero : itoa 0 [] 10 = [] := by decide

theorem isDigit_itoa {n : ℕ} (h : n < 10 ^ 100) : ∀ c ∈ itoa n [] 10, Http.isDigit 10 c := by
  rcases Nat.eq_zero_or_pos n with rfl | hpos
  · exact nofun
  · exact (Http.number_eq_some_iff.mp (number_itoa hpos h)).2.1

/-! ## The length in the head -/

/-- The message that is sent has a head that tells the length of the body behind it. -/
def Framed (run : Except Fault (List Act)) (body : List UInt8) : Prop :=
  ∃ acts msg ls, run = .ok acts ∧ sentBytes acts = [msg] ∧
    Http.headLines msg = some (ls, body) ∧ Http.contentLength ls = some body.length

/-- The lines in the head of `res_row`. -/
def rowLines (resStr : List UInt8) : List (List UInt8) :=
  [bytes "HTTP/1.1 200 OK", bytes "Content-type:text/html;utf-8;",
    bytes "Connection: Keep-alive;", bytes "Content-Length: " ++ itoa resStr.length [] 10]

/-- A text that has room is sent. -/
theorem resRow_eq (w : World) {s : List UInt8} (hs : IsText s)
    (hfits : (rowText s).length < finalStrSize) (acts : List Act) :
    resRow w s acts = .ok (resHandle w.wire (rowText s) acts) := by
  rcases resRow_cases w hs acts with ⟨-, hrun⟩ | ⟨hlong, -⟩
  · exact hrun
  · omega

section
variable {s : List UInt8} (hshort : s.length < 10 ^ 100)
include hshort

/-- The head that a client reads. -/
theorem headLines_rowText : Http.headLines (rowText s) = some (rowLines s, s) := by
  have hlines : ∀ l ∈ rowLines s, l ≠ [] ∧ 13 ∉ l := by
    intro l hl
    simp only [rowLines, List.mem_cons, List.not_mem_nil, or_false] at hl
    rcases hl with rfl | rfl | rfl | rfl
    · decide
    · decide
    · decide
    · refine ⟨List.append_ne_nil_of_left_ne_nil (by decide) _, ?_⟩
      intro hmem
      rcases List.mem_append.mp hmem with hmem | hmem
      · exact absurd hmem (by decide)
      · exact Http.isDigit_ne (isDigit_itoa hshort 13 hmem) rfl rfl
  have htext : rowText s = ((rowLines s).map (· ++ Http.crlf)).flatten ++ (Http.crlf ++ s) := by
    have hhead : bytes
        "HTTP/1.1 200 OK\r\nContent-type:text/html;utf-8;\r\nConnection: Keep-alive;\r\n"
        = bytes "HTTP/1.1 200 OK" ++ Http.crlf ++ bytes "Content-type:text/html;utf-8;" ++
          Http.crlf ++ bytes "Connection: Keep-alive;" ++ Http.crlf := by decide
    have hempty : bytes "\r\n\r\n" = Http.crlf ++ Http.crlf := by decide
    simp only [rowText, rowLines, hhead, hempty, List.map_cons, List.map_nil, List.flatten_cons,
      List.flatten_nil, List.append_assoc, List.append_nil]
  rw [htext]
  exact Http.headLines_eq hlines s

/-- What a client takes for the length is what `itoa` has written. -/
theorem contentLength_rowLines :
    Http.contentLength (rowLines s) = Http.number 10 (itoa s.length [] 10) := by
  have hblank : ∀ c ∈ itoa s.length [] 10, ¬ Http.isBlank c := by
    intro c hc hblank
    have hdigit := isDigit_itoa hshort c hc
    rcases of_decide_eq_true hblank with rfl | rfl
    · exact Http.isDigit_ne hdigit rfl rfl
    · exact Http.isDigit_ne hdigit rfl rfl
  have hname : bytes "Content-Length: " = bytes "Content-Length" ++ [58, 32] := by decide
  have hfield : Http.fieldValue (bytes "Content-Length")
      (bytes "Content-Length: " ++ itoa s.length [] 10) = some (itoa s.length [] 10) := by
    rw [hname, List.append_assoc]
    exact Http.fieldValue_eq (by decide) hblank
  have hother : ∀ l ∈ [bytes "HTTP/1.1 200 OK", bytes "Content-type:text/html;utf-8;",
      bytes "Connection: Keep-alive;"],
      Http.fieldValue (bytes "Content-Length") l = none := by decide
  rw [Http.contentLength, rowLines, List.findSome?_cons, hother _ (by decide),
    List.findSome?_cons, hother _ (by decide), List.findSome?_cons, hother _ (by decide),
    List.findSome?_cons, hfield]
  rfl

end

/-- A body that is not empty. -/
theorem framed_resRow (w : World) {s : List UInt8} (hs : IsText s)
    (hfits : (rowText s).length < finalStrSize) :
    Framed (resRow w s []) s ↔ Http.number 10 (itoa s.length [] 10) = some s.length := by
  have hsize : finalStrSize = 1048576 := rfl
  have hshort : s.length < 10 ^ 100 := by
    rw [rowText, List.length_append] at hfits
    omega
  have hrun := resRow_eq w hs hfits []
  constructor
  · rintro ⟨acts, msg, ls, hacts, hsent, hread, hlength⟩
    obtain rfl := Except.ok.inj (hrun.symm.trans hacts)
    obtain rfl := List.singleton_inj.mp ((sentBytes_resHandle _ _).symm.trans hsent)
    rw [headLines_rowText hshort] at hread
    obtain ⟨rfl, -⟩ := Prod.mk.inj (Option.some.inj hread)
    rwa [contentLength_rowLines hshort] at hlength
  · intro hnumber
    refine ⟨_, _, _, hrun, sentBytes_resHandle _ _, headLines_rowText hshort, ?_⟩
    rwa [contentLength_rowLines hshort]

/-- A world in which every path leads to the same file, or to none. -/
def diskWorld (file : Option (List UInt8)) : World where
  wire := fun _ => 0
  now := summerDay
  disk := fun _ => file
  raw := ⟨Block.zero _, .null, 0⟩
  ipCheckValid := 0

/-- The client finds the body of every message that fits, but for the empty one. -/
theorem framed_resRow_iff (w : World) {s : List UInt8} (hs : IsText s)
    (hfits : (rowText s).length < finalStrSize) : Framed (resRow w s []) s ↔ s ≠ [] := by
  have hsize : finalStrSize = 1048576 := rfl
  rw [framed_resRow w hs hfits]
  rcases eq_or_ne s [] with rfl | hne
  · refine iff_of_false ?_ (not_not_intro rfl)
    show Http.number 10 (itoa 0 [] 10) ≠ some 0
    rw [itoa_zero]
    decide
  · refine iff_of_true ?_ hne
    rw [rowText, List.length_append] at hfits
    exact number_itoa (List.length_pos_of_ne_nil hne) (by omega)

/-- A value of five bytes. -/
theorem framed_resRow_iff_hello :
    Framed (resRow (diskWorld none) (bytes "hello") []) (bytes "hello") :=
  (framed_resRow_iff (diskWorld none) (by decide) (by decide)).mpr (by decide)

/-- The empty body that `mdb_find` returns for a key that is not there. -/
theorem not_framed_empty : ¬ ∀ (w : World) (s : List UInt8), IsText s →
    (rowText s).length < finalStrSize → Framed (resRow w s []) s := by
  intro h
  have hframed := h (diskWorld none) [] (by decide) (by decide)
  rw [framed_resRow _ (by decide) (by decide)] at hframed
  exact absurd hframed (by decide)

/-! ## Chunks -/

/-- The calls of `send` for the bytes that a round of `res_file_handle` has read. -/
def chunkSends (buffer : List UInt8) : List (List UInt8) :=
  [hex buffer.length ++ Http.crlf, buffer, Http.crlf]

/-- What `fread` finds, round after round. -/
def reads (content : List UInt8) : List (List UInt8) :=
  if content.length < chunkSize then [content]
  else content.take chunkSize :: reads (content.drop chunkSize)
termination_by content.length
decreasing_by
  have hpos : 0 < chunkSize := by decide
  rw [List.length_drop]
  omega

/-- The head that `res_file_handle` sends. -/
def chunkedHead (contentType : List UInt8) : List UInt8 :=
  bytes "HTTP/1.1 200 OK\r\n" ++ bytes "Content-Type: " ++ contentType ++ bytes "\r\n" ++
    bytes "Transfer-Encoding: chunked\r\n\r\n"

/-- What is sent is the head and a chunked body that has the content and ends where the
sending ends. -/
def SendsChunked (run : Except Fault (List Act)) (head content : List UInt8) : Prop :=
  ∃ acts stream, run = .ok acts ∧ sentBytes acts = head :: stream ∧
    Http.dechunk stream.flatten = some (content, [])

theorem sentBytes_sendOn (wire : ℕ → ℤ) (b : List UInt8) (acts : List Act) :
    sentBytes (sendOn wire b acts) = sentBytes acts ++ [b] := by
  rw [sendOn, sentBytes, List.filterMap_append]
  rfl

/-- A chunk of at most a whole buffer is sent. -/
theorem sendChunk_eq (wire : ℕ → ℤ) {buffer : List UInt8} (h : buffer.length ≤ chunkSize)
    (acts : List Act) :
    ∃ acts', sendChunk wire buffer acts = .ok acts' ∧
      sentBytes acts' = sentBytes acts ++ chunkSends buffer := by
  have hsize : chunkSize = 524288 := rfl
  have hcrlf : bytes "\r\n" = Http.crlf := by decide
  have hlen : (hex buffer.length).length ≤ 5 := by
    rw [hex, List.length_map, Nat.length_toDigits_le_iff (by decide) (by decide)]
    omega
  have htext : IsText (hex buffer.length ++ bytes "\r\n") := by
    refine isText_append.mpr ⟨?_, by decide⟩
    intro hmem
    exact Http.isDigit_ne ((Http.number_eq_some_iff.mp (number_hex _)).2.1 0 hmem) rfl rfl
  obtain ⟨chunkHeader, hrun⟩ : ∃ b, (Block.zero 10).strcpy 0 (hex buffer.length ++ bytes "\r\n")
      = .ok b := by
    refine Block.strcpy_eq_ok ?_
    rw [List.length_append, hcrlf]
    show 0 + (_ + 2) + 1 ≤ 10
    omega
  have hstr : chunkHeader.str 0 = hex buffer.length ++ bytes "\r\n" :=
    Block.str_strcpy_self htext hrun
  refine ⟨_, by rw [sendChunk, hrun, ok_bind], ?_⟩
  simp only [sentBytes_sendOn, hstr, hcrlf, List.append_assoc]
  rfl

/-- The loop of `res_file_handle` sends what it reads. -/
theorem sendChunks_eq (wire : ℕ → ℤ) (content : List UInt8) (acts : List Act) :
    ∃ acts', sendChunks wire content acts = .ok acts' ∧
      sentBytes acts' = sentBytes acts ++ (reads content).flatMap chunkSends := by
  fun_induction reads content generalizing acts with
  | case1 content hlast =>
      obtain ⟨acts', hrun, hsent⟩ := sendChunk_eq wire hlast.le acts
      refine ⟨acts', by rw [sendChunks, if_pos hlast, hrun], ?_⟩
      rw [hsent, List.flatMap_singleton]
  | case2 content hmore ih =>
      have htake : (content.take chunkSize).length ≤ chunkSize := List.length_take_le _ _
      obtain ⟨acts₁, hrun₁, hsent₁⟩ := sendChunk_eq wire htake acts
      obtain ⟨acts', hrun, hsent⟩ := ih acts₁
      refine ⟨acts', by rw [sendChunks, if_neg hmore, hrun₁, ok_bind, hrun], ?_⟩
      rw [hsent, hsent₁, List.flatMap_cons, List.append_assoc]

/-- The bytes of a chunk, in front of others. -/
theorem flatten_chunkSends (buffer s : List UInt8) :
    (chunkSends buffer).flatten ++ s
      = hex buffer.length ++ (Http.crlf ++ (buffer ++ (Http.crlf ++ s))) := by
  simp only [chunkSends, List.flatten_cons, List.flatten_nil, List.append_assoc, List.append_nil]

/-- What a client makes of what the loop sends: a last round that reads nothing is the end of
the body for it. -/
theorem dechunk_reads (content s : List UInt8) :
    Http.dechunk (((reads content).flatMap chunkSends).flatten ++ s)
      = if content.length % chunkSize = 0 then some (content, s)
        else (Http.dechunk s).map fun (more, behind) => (content ++ more, behind) := by
  have hpos : 0 < chunkSize := by decide
  fun_induction reads content with
  | case1 content hlast =>
      rw [List.flatMap_singleton, flatten_chunkSends, Nat.mod_eq_of_lt hlast]
      rcases eq_or_ne content [] with rfl | hne
      · rw [List.length_nil, if_pos rfl]
        exact Http.dechunk_last (number_hex 0) s
      · rw [if_neg (List.length_pos_of_ne_nil hne).ne']
        exact Http.dechunk_chunk (number_hex _) hne s
  | case2 content hmore ih =>
      have hlen : (content.take chunkSize).length = chunkSize := by
        rw [List.length_take]
        omega
      have hne : content.take chunkSize ≠ [] := by
        intro hnil
        rw [hnil, List.length_nil] at hlen
        omega
      have hmod : (content.drop chunkSize).length % chunkSize = content.length % chunkSize := by
        rw [List.length_drop, ← Nat.mod_eq_sub_mod (by omega)]
      rw [List.flatMap_cons, List.flatten_append, List.append_assoc, flatten_chunkSends,
        Http.dechunk_chunk (number_hex _) hne, ih, hmod]
      split
      · show some (_ ++ _, s) = _
        rw [List.take_append_drop]
      · rw [Option.map_map]
        congr 1
        funext more
        show (_ ++ (_ ++ _), _) = (_ ++ _, _)
        rw [← List.append_assoc, List.take_append_drop]

/-- A file is sent, with another empty chunk behind what the loop sends. -/
theorem resFileHandle_eq (w : World) {path content : List UInt8} (ext : List UInt8)
    (hfile : w.disk path = some content) :
    ∃ acts, resFileHandle w path (getContentType ext) [] = .ok acts ∧
      sentBytes acts = chunkedHead (getContentType ext) ::
        ((reads content).flatMap chunkSends ++ [bytes "0\r\n\r\n"]) := by
  have htype := (show IsSuppliedType (getContentType ext) from .inl ⟨ext, rfl⟩).spec
  have htexts : ∀ x ∈ [bytes "HTTP/1.1 200 OK\r\n", bytes "Content-Type: ", getContentType ext,
      bytes "\r\n", bytes "Transfer-Encoding: chunked\r\n\r\n"], IsText x := by
    intro x hx
    simp only [List.mem_cons, List.not_mem_nil, or_false] at hx
    rcases hx with rfl | rfl | rfl | rfl | rfl
    · decide
    · decide
    · exact htype.1
    · decide
    · decide
  have hflatten : [bytes "HTTP/1.1 200 OK\r\n", bytes "Content-Type: ", getContentType ext,
      bytes "\r\n", bytes "Transfer-Encoding: chunked\r\n\r\n"].flatten
      = chunkedHead (getContentType ext) := by
    simp only [chunkedHead, List.flatten_cons, List.flatten_nil, List.append_assoc,
      List.append_nil]
  have hroom : (chunkedHead (getContentType ext)).length < 512 := by
    have h₁ : (bytes "HTTP/1.1 200 OK\r\n").length = 17 := by decide
    have h₂ : (bytes "Content-Type: ").length = 14 := by decide
    have h₃ : (bytes "\r\n").length = 2 := by decide
    have h₄ : (bytes "Transfer-Encoding: chunked\r\n\r\n").length = 30 := by decide
    simp only [chunkedHead, List.length_append, h₁, h₂, h₃, h₄]
    omega
  obtain ⟨head, hhead, hstr⟩ := Block.catAll_eq htexts (by rwa [hflatten])
  obtain ⟨acts, hrun, hsent⟩ := sendChunks_eq w.wire content
    (sendOn w.wire (chunkedHead (getContentType ext)) [])
  refine ⟨sendOn w.wire (bytes "0\r\n\r\n") acts ++ [Act.closeSocket], ?_, ?_⟩
  · simp only [resFileHandle, hhead, ok_bind, hstr, hflatten, hfile, hrun]
  · have hclose : ∀ acts : List Act, sentBytes (acts ++ [Act.closeSocket]) = sentBytes acts :=
      fun acts => by simp [sentBytes]
    have hnone : sentBytes [] = [] := rfl
    rw [hclose, sentBytes_sendOn, hsent, sentBytes_sendOn, hnone, List.nil_append,
      List.singleton_append, List.cons_append]

/-- What a client makes of a file that is sent. -/
theorem sendsChunked_resFileHandle (w : World) {path content : List UInt8} (ext : List UInt8)
    (hfile : w.disk path = some content) :
    SendsChunked (resFileHandle w path (getContentType ext) [])
        (chunkedHead (getContentType ext)) content ↔
      Http.dechunk (((reads content).flatMap chunkSends).flatten ++ bytes "0\r\n\r\n")
        = some (content, []) := by
  obtain ⟨acts, hrun, hsent⟩ := resFileHandle_eq w ext hfile
  have hflatten : ((reads content).flatMap chunkSends ++ [bytes "0\r\n\r\n"]).flatten
      = ((reads content).flatMap chunkSends).flatten ++ bytes "0\r\n\r\n" := by
    rw [List.flatten_append, List.flatten_singleton]
  constructor
  · rintro ⟨acts', stream, hrun', hsent', hread⟩
    obtain rfl := Except.ok.inj (hrun.symm.trans hrun')
    obtain ⟨-, rfl⟩ := List.cons.inj (hsent.symm.trans hsent')
    rwa [hflatten] at hread
  · intro hread
    exact ⟨acts, _, hrun, hsent, by rwa [hflatten]⟩

/-- A file is sent as a chunked body that ends with the sending, unless it consists of whole
buffers. -/
theorem sendsChunked_iff (w : World) {path content : List UInt8} (ext : List UInt8)
    (hfile : w.disk path = some content) :
    SendsChunked (resFileHandle w path (getContentType ext) [])
        (chunkedHead (getContentType ext)) content ↔
      content.length % chunkSize ≠ 0 := by
  have hzero : Http.number 16 (bytes "0") = some 0 := by decide
  have hend : Http.dechunk (bytes "0\r\n\r\n") = some ([], []) := Http.dechunk_last hzero []
  rw [sendsChunked_resFileHandle w ext hfile, dechunk_reads, hend]
  split
  · next hwhole =>
    refine iff_of_false ?_ (not_not_intro hwhole)
    intro heq
    have hbehind := (Prod.mk.inj (Option.some.inj heq)).2
    exact absurd hbehind (by decide)
  · next hrest =>
    refine iff_of_true ?_ hrest
    show some (content ++ [], _) = _
    rw [List.append_nil]

/-- One byte more than 1 MiB. -/
theorem sendsChunked_iff_odd :
    SendsChunked
      (resFileHandle (diskWorld (some (List.replicate 1048577 7))) (bytes "film.mp4")
        (getContentType (bytes "mp4")) [])
      (chunkedHead (getContentType (bytes "mp4"))) (List.replicate 1048577 7) := by
  refine (sendsChunked_iff _ (bytes "mp4") rfl).mpr ?_
  rw [List.length_replicate]
  decide

/-- 2 MiB are four buffers. -/
theorem not_sendsChunked_whole : ¬ ∀ (w : World) (path content ext : List UInt8),
    1024 * 1024 < content.length → w.disk path = some content →
      SendsChunked (resFileHandle w path (getContentType ext) [])
        (chunkedHead (getContentType ext)) content := by
  intro h
  have hsize : chunkSize = 524288 := rfl
  have hsent := h (diskWorld (some (List.replicate 2097152 7))) (bytes "film.mp4")
    (List.replicate 2097152 7) (bytes "mp4") (by rw [List.length_replicate]; decide) rfl
  rw [sendsChunked_resFileHandle _ _ rfl, dechunk_reads, List.length_replicate,
    if_pos (by rw [hsize])] at hsent
  have hbehind := (Prod.mk.inj (Option.some.inj hsent)).2
  exact absurd hbehind (by decide)
