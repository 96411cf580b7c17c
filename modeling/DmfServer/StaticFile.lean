/-
# Small static files

`traverse_directory` records the size of a file at the start of the server, and `res_static`
decides by it: up to 1 MiB the file is loaded and sent from memory.  The limit leaves no room
in `final_str` for the head (`fitsBuffer_iff`), and the file may have become shorter since, or
have gone (`servedNow_iff`).
-/
import DmfServer.MessageFraming

open CMem

/-- An entry as `router_init` leaves it. -/
def FileInfo.Registered (f : FileInfo) : Prop := f.contentType = getContentType f.ext

/-- The record that `res_static` fills, up to its body. -/
def staticRecord (w : World) (f : FileInfo) : Except Fault Response := do
  let res ← resInit w.now w.raw
  let res ← resSetHead res (bytes "200")
  resSetType res f.contentType

/-- The head that `res_parse_send` puts together for the file has room in `final_str`, with a
body of its size behind it. -/
def FileInfo.FitsBuffer (f : FileInfo) (w : World) : Prop :=
  ∃ res finalStr, staticRecord w f = .ok res ∧ assembledHead res = .ok finalStr ∧
    (finalStr.str 0).length + f.argSize ≤ finalStrSize

/-- The file is sent behind its head, with nothing in the body but what is in the file by
now, and the run does not fail: it reads no byte behind those of the file, and what it frees is
from `malloc`. -/
def FileInfo.ServedNow (f : FileInfo) (w : World) : Prop :=
  ∃ acts body, resStatic w f [] = .ok acts ∧
    sentBytes acts = [fileHeader w.now f.contentType ++ body] ∧
    body <+: (w.disk f.path).getD []

/-! ## The length of the head -/

/-- The length of a file's head, by the date and the content type: what the line of a content
type leaves over from its array is sent a second time. -/
def headLength (p : Tm) (contentType : List UInt8) : ℕ :=
  79 + (serverTime p).length + contentType.length + (contentType.length - 17)

section
variable {f : FileInfo} (hreg : f.Registered)
include hreg

theorem FileInfo.Registered.length_contentType :
    f.contentType.length ≤ 16 ∨ 18 ≤ f.contentType.length ∧ f.contentType.length ≤ 29 := by
  have hsupplied : IsSuppliedType f.contentType := .inl ⟨f.ext, hreg⟩
  exact hsupplied.spec.2

theorem FileInfo.Registered.type_room :
    contentTypeAt + (typeLine f.contentType).length < responseSize := by
  have hplace := places
  have hlen := hreg.length_contentType
  rw [length_typeLine]
  omega

theorem FileInfo.Registered.length_fileHeader (p : Tm) :
    (fileHeader p f.contentType).length = headLength p f.contentType := by
  have h₁ : (bytes "Date:").length = 5 := by decide
  have h₂ : (bytes "\r\n").length = 2 := by decide
  have h₃ : (bytes "200").length = 3 := by decide
  have hlen := hreg.length_contentType
  have htype := length_typeLine f.contentType
  have hcookie : (spill (typeLine f.contentType) []).length = f.contentType.length - 17 := by
    rw [spill]
    split
    · rw [List.length_nil]
      omega
    · rw [List.length_drop]
      omega
  have hconnection : spill ((typeLine f.contentType).drop 32) connectionLine = connectionLine := by
    rw [spill, if_pos]
    rw [List.length_drop]
    omega
  simp only [fileHeader, dateLine, headLength, hcookie, hconnection, List.length_append,
    length_statusLine, length_serverLine, length_connectionLine, htype, h₁, h₂, h₃]
  omega

/-- The head of a registered file. -/
theorem FileInfo.Registered.head_eq (w : World) :
    ∃ res finalStr, staticRecord w f = .ok res ∧ assembledHead res = .ok finalStr ∧
      finalStr.str 0 = fileHeader w.now f.contentType := by
  have hroom := hreg.type_room
  rcases resSetType_file w f with ⟨-, res, hrun, hholds⟩ | ⟨hfull, -⟩
  · obtain ⟨finalStr, hhead, hstr⟩ := assembledHead_eq (hholds.ends_file hroom)
    exact ⟨res, finalStr, hrun, hhead, hstr.trans hholds.headerText_eq⟩
  · omega

theorem FileInfo.Registered.fitsBuffer (w : World) :
    f.FitsBuffer w ↔ (fileHeader w.now f.contentType).length + f.argSize ≤ finalStrSize := by
  obtain ⟨res, finalStr, hrun, hhead, hstr⟩ := hreg.head_eq w
  constructor
  · rintro ⟨res', finalStr', hrun', hhead', hfits⟩
    obtain rfl := Except.ok.inj (hrun.symm.trans hrun')
    obtain rfl := Except.ok.inj (hhead.symm.trans hhead')
    rwa [hstr] at hfits
  · intro hfits
    exact ⟨res, finalStr, hrun, hhead, by rwa [hstr]⟩

end

/-! ## Room for head and body -/

/-- What `res_static` hands over fits into `final_str` when the size leaves room for the head. -/
theorem fitsBuffer_iff (w : World) {f : FileInfo} (hreg : f.Registered) :
    f.FitsBuffer w ↔ headLength w.now f.contentType + f.argSize ≤ 1024 * 1024 := by
  rw [hreg.fitsBuffer, hreg.length_fileHeader]
  rfl

/-- An HTML file of some size. -/
def noteFile (size : ℕ) : FileInfo where
  path := bytes "/srv/static/note.html"
  size := size
  ext := bytes "html"
  contentType := bytes "text/html"
  url := bytes "/srv/static/note.html"
  contentType_text := by decide

theorem registered_noteFile (size : ℕ) : (noteFile size).Registered := by
  show bytes "text/html" = getContentType (bytes "html")
  decide

/-- A million bytes. -/
theorem fitsBuffer_iff_million : (noteFile 1000000).FitsBuffer (diskWorld none) :=
  (fitsBuffer_iff _ (registered_noteFile _)).mpr (by decide)

/-- 1 MiB is not too long to be sent from memory. -/
theorem not_fitsBuffer_limit : ¬ ∀ (w : World) (f : FileInfo), f.Registered →
    f.argSize ≤ 1024 * 1024 → f.FitsBuffer w := by
  intro h
  have hfits := h (diskWorld none) (noteFile 1048576) (registered_noteFile _) (by decide)
  rw [(registered_noteFile _).fitsBuffer] at hfits
  exact absurd hfits (by decide)

/-! ## The file as it is now -/

/-- A small file is served from what is in it now when it is still there, not shorter than it was
at the start, and has room behind its head. -/
theorem servedNow_iff (w : World) {f : FileInfo} (hreg : f.Registered)
    (hsmall : f.argSize ≤ 1024 * 1024) :
    f.ServedNow w ↔ (∃ content, w.disk f.path = some content ∧ f.argSize ≤ content.length) ∧
      headLength w.now f.contentType + f.argSize ≤ 1024 * 1024 := by
  rw [← hreg.length_fileHeader]
  constructor
  · rintro ⟨acts, body, hrun, -⟩
    obtain ⟨hserved, -⟩ := (resStatic_ok_iff hsmall).mp hrun
    exact ⟨hserved.content, hserved.fits⟩
  · rintro ⟨⟨content, hcontent, hsize⟩, hfits⟩
    have hserved : f.Served w := ⟨hsmall, ⟨content, hcontent, hsize⟩, hreg.type_room, hfits⟩
    refine ⟨_, content.take f.argSize,
      (resStatic_ok_iff hsmall).mpr ⟨hserved, content, hcontent, rfl⟩,
      sentBytes_resHandle _ _, ?_⟩
    rw [hcontent]
    exact List.take_prefix _ _

/-- A file that has grown by a byte. -/
theorem servedNow_iff_grown : (noteFile 3).ServedNow (diskWorld (some (bytes "abcd"))) :=
  (servedNow_iff _ (registered_noteFile _) (by decide)).mpr ⟨⟨_, rfl, by decide⟩, by decide⟩

/-- A file that has gone. -/
theorem not_servedNow_gone : ¬ ∀ (w : World) (f : FileInfo), f.Registered →
    f.argSize ≤ 1024 * 1024 → f.ServedNow w := by
  intro h
  obtain ⟨acts, body, hrun, -⟩ :=
    h (diskWorld none) (noteFile 3) (registered_noteFile _) (by decide)
  obtain ⟨-, content, hcontent, -⟩ := (resStatic_ok_iff (by decide)).mp hrun
  cases hcontent
