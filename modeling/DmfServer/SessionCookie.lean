/-
# The session cookie of a request

`req_get_session_str` looks for `dmfsession=` in the `Cookie` header as it stands in the
map, cuts the header 21 characters behind the place, and copies what is behind the `=`.
`req_get_param` copies a header out.

The search takes the first `dmfsession=`, be it the end of another name or part of a
value, and the cut stays in the map: the cookies behind the one found are gone.

The header is taken as it stands in the map: the block that the parser copies it to has no
room for its NUL, and what is read of it then is a question of the allocator (`SpareByte`).
-/
import DmfServer.RequestRecord

open CMem

/-! ## The functions -/

/-- `*(temp + 21) = '\0'` in the value `data` points to: the newest one of the key. -/
def cutParam (request : Request) (key text : List UInt8) : Request :=
  { request with
    params := (ChainTable.replace HashmapNode.key hashFunction request.params key
      (fun node => some { node with value := text })).getD request.params }

/-- `req_get_session_str`: the request, and the text in `session_str`, behind the call. -/
def reqGetSessionStr (request : Request) (sessionStr : List UInt8) : Request × List UInt8 :=
  match hashmapGet request.params (bytes "Cookie") with
  | none => (request, sessionStr)
  | some data =>
      match strstr data (bytes "dmfsession=") with
      | none => (request, sessionStr)
      | some temp =>
          if 21 ≤ temp.length then
            (cutParam request (bytes "Cookie") (data.take (data.length - temp.length + 21)),
              (temp.take 21).drop 11)
          else (request, sessionStr)

/-- `req_get_param`: the text in `data` behind the call. -/
def reqGetParam (request : Request) (key data : List UInt8) : List UInt8 :=
  (hashmapGet request.params key).getD data

/-- The cut shows under its own key and under no other. -/
theorem hashmapGet_cutParam {request : Request} {key was : List UInt8}
    (hget : hashmapGet request.params key = some was) (text k : List UInt8) :
    hashmapGet (cutParam request key text).params k
      = if k = key then some text else hashmapGet request.params k := by
  have hkeeps : ChainTable.KeepsKey HashmapNode.key
      (fun node : TextPair => some { node with value := text }) := by
    intro b b' h
    cases h
    rfl
  -- the key has a node, so there is one to cut
  rw [hashmapGet_eq, Option.map_eq_some_iff] at hget
  obtain ⟨node, hnode, -⟩ := hget
  obtain ⟨rest, hrest⟩ := List.head?_eq_some_iff.mp hnode
  have hself : (ChainTable.replace HashmapNode.key hashFunction request.params key
      (fun node => some { node with value := text })).map
        (ChainTable.bindings HashmapNode.key hashFunction · key)
        = some ({ node with value := text } :: rest) := by
    rw [ChainTable.bindings_replace_self _ hkeeps, hrest]
    rfl
  obtain ⟨params, hparams, hbindings⟩ := Option.map_eq_some_iff.mp hself
  rw [cutParam, hparams, Option.getD_some, hashmapGet_eq]
  split
  · next h =>
    rw [h, hbindings]
    rfl
  · next h => rw [ChainTable.bindings_replace_of_ne hkeeps hparams h, ← hashmapGet_eq]

/-! ## Cookie headers -/

/-- A cookie of a `Cookie` header. -/
structure RequestCookie where
  name : List UInt8
  value : List UInt8
  name_text : ∀ c ∈ name, c ≠ Ascii.equals ∧ c ≠ Ascii.semicolon ∧ c ≠ Ascii.space ∧ c ≠ 0
  value_text : ∀ c ∈ value, c ≠ Ascii.semicolon ∧ c ≠ 0

/-- `name=value`. -/
def RequestCookie.render (c : RequestCookie) : List UInt8 :=
  c.name ++ Ascii.equals :: c.value

/-- A `Cookie` header with one session cookie, of 10 characters, anywhere in it. -/
structure CookieHeader where
  before : List RequestCookie
  value : List UInt8
  after : List RequestCookie
  value_text : ∀ c ∈ value, c ≠ Ascii.semicolon ∧ c ≠ 0
  value_length : value.length = 10
  others : ∀ c ∈ before ++ after, c.name ≠ bytes "dmfsession"

namespace CookieHeader

/-- The cookies in front of the session cookie, each with the `; ` behind it. -/
def front (h : CookieHeader) : List UInt8 := h.before.flatMap fun c => c.render ++ bytes "; "

/-- The cookies behind it, each with the `; ` in front of it. -/
def back (h : CookieHeader) : List UInt8 := h.after.flatMap fun c => bytes "; " ++ c.render

/-- The text of the header. -/
def render (h : CookieHeader) : List UInt8 :=
  h.front ++ (bytes "dmfsession=" ++ (h.value ++ h.back))

theorem back_eq_nil_iff (h : CookieHeader) : h.back = [] ↔ h.after = [] := by
  unfold back
  cases h.after with
  | nil => simp
  | cons c after => simp [bytes]

/-- The text in front of the session cookie ends in the space behind a cookie. -/
theorem front_eq (h : CookieHeader) : h.front = [] ∨ ∃ t, h.front = t ++ [Ascii.space] := by
  unfold front
  rcases List.eq_nil_or_concat h.before with hnil | ⟨before, c, hbefore⟩
  · exact Or.inl (by rw [hnil]; rfl)
  · refine Or.inr ⟨before.flatMap (fun c => c.render ++ bytes "; ") ++ (c.render ++ bytes ";"), ?_⟩
    rw [hbefore, List.concat_eq_append, List.flatMap_append, List.flatMap_singleton,
      List.append_assoc, List.append_assoc]
    rfl

/-- A `dmfsession=` that begins in front of the session cookie ends in front of it. -/
theorem strstr_render (h : CookieHeader) (hfront : ¬bytes "dmfsession=" <:+: h.front) :
    strstr h.render (bytes "dmfsession=") = some (bytes "dmfsession=" ++ (h.value ++ h.back)) := by
  refine strstr_append (by decide) fun back hback hsuffix hpre => ?_
  rcases Nat.lt_or_ge back.length 11 with hlt | hge
  · -- it would run over the space
    have hspace : Ascii.space ∈ back := by
      rcases h.front_eq with hnil | ⟨t, ht⟩
      · rw [hnil] at hsuffix
        exact absurd (List.suffix_nil.mp hsuffix) hback
      · obtain ⟨u, hu⟩ := hsuffix
        rcases List.eq_nil_or_concat back with hnil | ⟨back', c, rfl⟩
        · exact absurd hnil hback
        · rw [List.concat_eq_append, ht, ← List.append_assoc] at hu
          obtain ⟨-, rfl⟩ := List.append_singleton_inj.mp hu
          simp
    have hin : back <+: bytes "dmfsession=" :=
      List.prefix_of_prefix_length_le (List.prefix_append back _) hpre (by simp [bytes]; omega)
    have hmem := hin.subset hspace
    exact absurd hmem (by decide)
  · have hin : bytes "dmfsession=" <+: back :=
      List.prefix_of_prefix_length_le hpre (List.prefix_append back _) hge
    exact hfront (hin.isInfix.trans hsuffix.isInfix)

end CookieHeader

/-- `req_get_session_str`, where 10 characters follow the first `dmfsession=`. -/
theorem reqGetSessionStr_eq {request : Request} {front rest : List UInt8}
    (hget : hashmapGet request.params (bytes "Cookie")
      = some (front ++ (bytes "dmfsession=" ++ rest)))
    (hfound : strstr (front ++ (bytes "dmfsession=" ++ rest)) (bytes "dmfsession=")
      = some (bytes "dmfsession=" ++ rest))
    (hlen : 10 ≤ rest.length) (sessionStr : List UInt8) :
    reqGetSessionStr request sessionStr
      = (cutParam request (bytes "Cookie") (front ++ (bytes "dmfsession=" ++ rest.take 10)),
        rest.take 10) := by
  have hneedle : (bytes "dmfsession=").length = 11 := rfl
  have hroom : 21 ≤ (bytes "dmfsession=" ++ rest).length := by
    rw [List.length_append, hneedle]
    omega
  have htake : (bytes "dmfsession=" ++ rest).take 21 = bytes "dmfsession=" ++ rest.take 10 := by
    rw [show 21 = (bytes "dmfsession=").length + 10 from rfl, List.take_length_add_append]
  have hcut : (front ++ (bytes "dmfsession=" ++ rest)).take
      ((front ++ (bytes "dmfsession=" ++ rest)).length - (bytes "dmfsession=" ++ rest).length + 21)
      = front ++ (bytes "dmfsession=" ++ rest.take 10) := by
    rw [@List.length_append _ front, Nat.add_sub_cancel, List.take_length_add_append, htake]
  unfold reqGetSessionStr
  rw [hget]
  dsimp only
  rw [hfound]
  dsimp only
  rw [if_pos hroom, hcut, htake]
  rfl

/-- **The session cookie is read as it should exactly where it comes last and first.**  The
value comes out and no header is changed if and only if no cookie is behind the session
cookie, and no `dmfsession=` in what is in front of it. -/
theorem reqGetSessionStr_exact_iff (request : Request) (h : CookieHeader)
    (hget : hashmapGet request.params (bytes "Cookie") = some h.render)
    (sessionStr : List UInt8) :
    ((reqGetSessionStr request sessionStr).2 = h.value ∧
      ∀ key data, reqGetParam (reqGetSessionStr request sessionStr).1 key data
        = reqGetParam request key data) ↔
    h.after = [] ∧ ¬bytes "dmfsession=" <:+: h.front := by
  constructor
  · rintro ⟨-, hparams⟩
    have hneedle : (bytes "dmfsession=").length = 11 := rfl
    have hne : bytes "dmfsession=" ≠ [] := by decide
    obtain ⟨front, rest, hfound, hsplit, hle⟩ := exists_strstr hne h.front (h.value ++ h.back)
    have hlen := congrArg List.length hsplit
    simp only [List.length_append, hneedle, h.value_length] at hlen
    have hget' : hashmapGet request.params (bytes "Cookie")
        = some (front ++ (bytes "dmfsession=" ++ rest)) := by
      rw [hget, CookieHeader.render, hsplit]
    have hrun := reqGetSessionStr_eq hget' (by rw [← hsplit, hfound]) (by omega) sessionStr
    -- the header is as long as before, so nothing was behind the 21 characters
    have hcut := hparams (bytes "Cookie") []
    rw [hrun, reqGetParam, reqGetParam, hashmapGet_cutParam hget', if_pos rfl, hget',
      Option.getD_some, Option.getD_some] at hcut
    have hsame := congrArg List.length hcut
    simp only [List.length_append, List.length_take, hneedle] at hsame
    have hback : h.back.length = 0 := by omega
    refine ⟨h.back_eq_nil_iff.mp (List.length_eq_zero_iff.mp hback), ?_⟩
    rintro ⟨a, b, hab⟩
    -- an earlier one would have been found
    obtain ⟨front', rest', hfound', hsplit', hle'⟩ := exists_strstr hne a
      (b ++ (bytes "dmfsession=" ++ (h.value ++ h.back)))
    have hwhole : a ++ (bytes "dmfsession=" ++ (b ++ (bytes "dmfsession=" ++ (h.value ++ h.back))))
        = h.front ++ (bytes "dmfsession=" ++ (h.value ++ h.back)) := by
      rw [← hab]
      simp only [List.append_assoc]
    rw [hwhole, hfound, Option.some.injEq, List.append_cancel_left_eq] at hfound'
    rw [hwhole, ← hfound'] at hsplit'
    have hlen' := congrArg List.length hsplit'
    have hfront := congrArg List.length hab
    simp only [List.length_append, hneedle, h.value_length] at hlen' hfront
    omega
  · rintro ⟨hafter, hfront⟩
    have hback : h.back = [] := h.back_eq_nil_iff.mpr hafter
    have hfirst := h.strstr_render hfront
    have hrun := reqGetSessionStr_eq hget hfirst (by
      rw [List.length_append, h.value_length]
      omega) sessionStr
    have hvalue : (h.value ++ h.back).take 10 = h.value := by
      rw [hback, List.append_nil, List.take_of_length_le (le_of_eq h.value_length)]
    rw [hvalue] at hrun
    rw [hrun]
    refine ⟨rfl, fun key data => ?_⟩
    rw [reqGetParam, hashmapGet_cutParam hget]
    split
    · next hkey => rw [hkey, reqGetParam, hget, CookieHeader.render, hback, List.append_nil]
    · rfl

/-- A request with a `Cookie` header and nothing else. -/
def cookieRequest (header : List UInt8) : Request :=
  { RequestMem.zero with
    query := hashmapCreate _ _
    params := hashmapInsert (hashmapCreate _ _) ⟨bytes "Cookie", header⟩ }

/-- A session cookie behind another one. -/
def lastSession : CookieHeader where
  before := [⟨bytes "a", bytes "b", by decide, by decide⟩]
  value := bytes "0123456789"
  after := []
  value_text := by decide
  value_length := by decide
  others := by decide

theorem reqGetSessionStr_exact_last :
    (reqGetSessionStr (cookieRequest (bytes "a=b; dmfsession=0123456789")) []).2
      = bytes "0123456789" :=
  ((reqGetSessionStr_exact_iff (cookieRequest (bytes "a=b; dmfsession=0123456789")) lastSession
    (by decide) []).mpr ⟨rfl, by decide⟩).1

/-- A cookie behind the session cookie is cut off. -/
def firstSession : CookieHeader where
  before := []
  value := bytes "0123456789"
  after := [⟨bytes "a", bytes "b", by decide, by decide⟩]
  value_text := by decide
  value_length := by decide
  others := by decide

theorem reqGetSessionStr_cuts :
    ¬∀ (request : Request) (h : CookieHeader),
      hashmapGet request.params (bytes "Cookie") = some h.render → ∀ sessionStr,
      (reqGetSessionStr request sessionStr).2 = h.value ∧
        ∀ key data, reqGetParam (reqGetSessionStr request sessionStr).1 key data
          = reqGetParam request key data := by
  intro h
  have hcut := (h (cookieRequest (bytes "dmfsession=0123456789; a=b")) firstSession (by decide)
    []).2 (bytes "Cookie") []
  revert hcut
  decide
