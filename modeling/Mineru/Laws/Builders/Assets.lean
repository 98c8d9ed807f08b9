import Mineru.Builders.Assets
import Mineru.Laws.Builders.Prepare
import Mineru.Logic.Reads

/-!
# Storing the assets of a page

Within the cap, storing pictures and crops never fails. What could refuse a picture is that its path is
taken by other bytes. `Made` says which bytes are stored under which seed: a seed that is a data URI
determines them, also where one picture stands for all metafiles and its URI is met in a table as well.
Every asset has the path of its seed (`Named`), so that equal paths mean equal seeds as long as SHA-256
separates the seeds of the page (`Media.Separates`), and then equal bytes.

The cap is counted with `uriBytes` and `cropBytes`: what is checked for a picture or a crop before it is
stored, and what is stored. A crop of a box of points is not empty where the raster matches the page
(`cropRect_ok`).
-/

set_option autoImplicit false

namespace Mineru.Builders

/-- The raster fits the page, and no side of it is longer than a JPEG may be. -/
structure Raster.Fits (raster : Raster) : Prop where
  scale : 0 < raster.scale
  width : ⌈raster.size.width * raster.scale⌉ = raster.width
  widthMax : raster.width ≤ 65535
  height : ⌈raster.size.height * raster.scale⌉ = raster.height
  heightMax : raster.height ≤ 65535

namespace Media

open Logic Logic.Regex
open Vlm (lowercase)

variable {media : Media}

/-! ## What is assumed of the given functions -/

/-- The digests of these seeds differ. -/
def Separates (media : Media) (seeds : List Text) : Prop :=
  ∀ a ∈ seeds, ∀ b ∈ seeds, media.sha256 a = media.sha256 b → a = b

/-- Base64 on the picture for metafiles: its text holds characters of the alphabet only, and is decoded
to what was encoded. -/
structure Base64 (media : Media) : Prop where
  alphabet : ∀ c ∈ media.encodeBase64 media.placeholder, isBase64 c = true
  decode : media.decodeBase64 (media.encodeBase64 media.placeholder) = some media.placeholder

/-- A digest has 32 bytes. -/
def Digests (media : Media) : Prop := ∀ t, (media.sha256 t).length = 32

/-! ## Paths -/

theorem imagePath_inj (digests : media.Digests) {a b extension extension' : Text}
    (same : imagePath (media.basename a extension) = imagePath (media.basename b extension')) :
    media.sha256 a = media.sha256 b := by
  have names : media.basename a extension = media.basename b extension' :=
    List.append_cancel_left same
  have lengths : (media.sha a).length = (media.sha b).length := by
    unfold sha
    rw [hexDigest_length, hexDigest_length, digests, digests]
  exact hexDigest_inj (List.append_inj names lengths).1

/-! ## Data URIs -/

/-- A URI in the HTML of a table is a data URI of a picture. -/
theorem pictureUris_starts {html uri : Text} (mem : uri ∈ pictureUris html) :
    text "data:image/" <+: uri := by
  obtain ⟨⟨gap, groups⟩, there, rfl⟩ := List.mem_map.mp mem
  obtain ⟨u, size, found⟩ := Matches.found_of_mem 0 gap groups there
  obtain ⟨⟨stop, groups'⟩, first, same⟩ := Option.map_eq_some_iff.mp found
  obtain ⟨same, -⟩ := Prod.mk.inj same
  obtain ⟨rest, is⟩ := group_starts (List.mem_of_mem_head? first)
  have is : groups.get 1 = some (text "data:image/" ++ rest) := same ▸ is
  show text "data:image/" <+: (groups.get 1).getD []
  rw [is]
  exact List.prefix_append _ _

/-- The URI of the picture that stands for metafiles, if it is read at all. -/
theorem parseDataUri_placeholder (base64 : media.Base64) {parts : DataUri}
    (is : parseDataUri media.placeholderSeed = some parts) :
    parts = ⟨text "jpeg", media.encodeBase64 media.placeholder⟩ := by
  have kept := base64.alphabet
  unfold placeholderSeed at is
  generalize media.encodeBase64 media.placeholder = payload at kept is ⊢
  cases payload with
  | nil =>
    have unread : parseDataUri (text "data:image/jpeg;base64," ++ []) = none := by decide +kernel
    rw [unread] at is
    cases is
  | cons c t =>
    have plain : ∀ d ∈ ['j', 'p', 'e', 'g'], decide (d ≠ ';') = true := by simp
    have declared : Reads (plus fun c => c ≠ ';')
        (text "jpeg" ++ (text ";base64," ++ (c :: t))) [] (text ";base64," ++ (c :: t)) := by
      refine .plus (List.cons_ne_nil _ _) plain fun d is => ?_
      rw [← Option.some.inj is]
      rfl
    have whole : Reads (plus fun _ => true) (c :: t ++ []) [] [] :=
      .plus (List.cons_ne_nil c t) (fun _ _ => rfl) (fun _ none => nomatch none)
    have reads : Reads dataUri (text "data:image/" ++ (text "jpeg" ++ (text ";base64," ++ (c :: t))))
        ([] ++ ([(1, text "jpeg")] ++ ([] ++ [(2, c :: t)]))) [] := by
      refine Reads.seq (.literal _ _) (Reads.seq (Reads.group declared) (Reads.seq (.literal _ _) ?_))
      have grouped := Reads.group (n := 2) whole
      rw [List.append_nil] at grouped
      exact grouped
    have found := reads.find none
    unfold parseDataUri at is
    rw [show text "data:image/jpeg;base64," ++ c :: t =
      text "data:image/" ++ (text "jpeg" ++ (text ";base64," ++ (c :: t))) from rfl, found] at is
    have all : (c :: t).filter isBase64 = c :: t := List.filter_eq_self.mpr kept
    have same : (⟨text "jpeg", (c :: t).filter isBase64⟩ : DataUri) = parts := Option.some.inj is
    rw [← same, all]

/-! ## Seeds -/

/-- What is stored under a seed: the payload of a data URI, the picture that stands for metafiles, or
the crop of another seed. -/
inductive Made (media : Media) : Text → List UInt8 → Prop where
  | uri {uri : Text} {parts : DataUri} {data : List UInt8} : text "data:image/" <+: uri →
      parseDataUri uri = some parts → isMetafile parts.declared = false →
      media.decodeBase64 parts.encoded = some data → Made media uri data
  | placeholder : Made media media.placeholderSeed media.placeholder
  | crop {seed : Text} (data : List UInt8) : ¬ text "data:image/" <+: seed → Made media seed data

theorem placeholderSeed_starts (media : Media) : text "data:image/" <+: media.placeholderSeed :=
  ⟨text "jpeg;base64," ++ media.encodeBase64 media.placeholder, rfl⟩

/-- The picture that stands for metafiles is what its own URI holds. -/
theorem made_placeholder (base64 : media.Base64) {data : List UInt8}
    (made : Made media media.placeholderSeed data) : data = media.placeholder := by
  generalize same : media.placeholderSeed = seed at made
  cases made with
  | uri _ read _ decoded =>
    subst same
    rw [parseDataUri_placeholder base64 read, base64.decode] at decoded
    exact (Option.some.inj decoded).symm
  | placeholder => rfl
  | crop _ other => exact absurd (same ▸ placeholderSeed_starts media) other

/-- A data URI determines what is stored under it. -/
theorem Made.unique (base64 : media.Base64) {seed : Text} (starts : text "data:image/" <+: seed)
    {a b : List UInt8} (first : Made media seed a) (second : Made media seed b) : a = b := by
  cases first with
  | uri _ read still decoded =>
    cases second with
    | uri _ read' _ decoded' =>
      rw [read] at read'
      rw [← Option.some.inj read', decoded] at decoded'
      exact Option.some.inj decoded'
    | placeholder => exact made_placeholder base64 (.uri starts read still decoded)
    | crop _ other => exact absurd starts other
  | placeholder => exact (made_placeholder base64 second).symm
  | crop _ other => exact absurd starts other

/-! ## The map -/

/-- Each asset has the path of a seed of the page, and what is made under it. -/
def Named (media : Media) (seeds : List Text) (assets : Assets) : Prop :=
  ∀ entry ∈ assets, ∃ seed ∈ seeds, ∃ extension,
    entry.1 = imagePath (media.basename seed extension) ∧ Made media seed entry.2.data

theorem Named.nil (media : Media) (seeds : List Text) : Named media seeds [] :=
  fun _ none => absurd none List.not_mem_nil

theorem Named.cons {seeds : List Text} {assets : Assets} (named : Named media seeds assets)
    {seed extension : Text} (listed : seed ∈ seeds) {asset : Asset} (made : Made media seed asset.data) :
    Named media seeds ((imagePath (media.basename seed extension), asset) :: assets) := by
  intro entry mem
  rcases List.mem_cons.mp mem with rfl | mem
  · exact ⟨seed, listed, extension, rfl, made⟩
  · exact named entry mem

/-- What is assumed of the given functions and of the seeds of a page. -/
structure Sound (media : Media) (seeds : List Text) : Prop where
  base64 : media.Base64
  digests : media.Digests
  separates : media.Separates seeds
  placeholder : media.placeholderSeed ∈ seeds

section

variable {seeds : List Text} (sound : media.Sound seeds)

include sound

/-- A picture under a data URI is never refused. -/
theorem storePicture_ok {assets : Assets} (named : Named media seeds assets) {picture : Picture}
    (listed : picture.seed ∈ seeds) (starts : text "data:image/" <+: picture.seed)
    (made : Made media picture.seed picture.data) :
    ∃ assets', media.storePicture assets picture = .ok assets' ∧ Named media seeds assets' ∧
      assetBytes assets' ≤ assetBytes assets + picture.data.length := by
  unfold storePicture
  dsimp only
  split
  · next existing there =>
    obtain ⟨before, after, split, -⟩ := List.lookup_eq_some_iff.mp there
    obtain ⟨seed, listed', extension, path, made'⟩ := named _
      (split ▸ List.mem_append_right before List.mem_cons_self)
    have same : seed = picture.seed := sound.separates _ listed' _ listed
      (imagePath_inj sound.digests path.symm)
    subst same
    rw [if_neg (not_not.mpr (made'.unique sound.base64 starts made))]
    exact ⟨assets, rfl, named, Nat.le_add_right _ _⟩
  · refine ⟨_, rfl, named.cons listed made, ?_⟩
    show picture.data.length + assetBytes assets ≤ _
    omega

/-- The bytes that a URI in a table is counted with. -/
def uriBytes (media : Media) (uri : Text) : Nat :=
  (parseDataUri uri).elim 0 fun parts => base64UpperBound parts.encoded.length +
    (media.decodeBase64 parts.encoded).elim 0 fun data =>
      (media.picture uri parts.declared data).data.length

theorem picture_made {uri : Text} (starts : text "data:image/" <+: uri) (listed : uri ∈ seeds)
    {parts : DataUri} (read : parseDataUri uri = some parts) {data : List UInt8}
    (decoded : media.decodeBase64 parts.encoded = some data) :
    (media.picture uri parts.declared data).seed ∈ seeds ∧
      text "data:image/" <+: (media.picture uri parts.declared data).seed ∧
      Made media (media.picture uri parts.declared data).seed
        (media.picture uri parts.declared data).data := by
  unfold picture
  split
  · exact ⟨sound.placeholder, placeholderSeed_starts media, .placeholder⟩
  · next other => exact ⟨listed, starts, .uri starts read (Bool.eq_false_iff.mpr other) decoded⟩

theorem inlineImage_ok {cap : Nat} {s : Inlined} (named : Named media seeds s.1) {uri : Text}
    (starts : text "data:image/" <+: uri) (listed : uri ∈ seeds)
    (ample : assetBytes s.1 + media.uriBytes uri ≤ cap) :
    ∃ s', media.inlineImage cap s uri = .ok s' ∧ Named media seeds s'.1 ∧
      assetBytes s'.1 ≤ assetBytes s.1 + media.uriBytes uri := by
  unfold uriBytes at ample ⊢
  unfold inlineImage
  cases read : parseDataUri uri with
  | none => exact ⟨s, rfl, named, Nat.le_add_right _ _⟩
  | some parts =>
    rw [read] at ample
    dsimp only [Option.elim_some] at ample ⊢
    rw [if_neg (by omega)]
    cases decoded : media.decodeBase64 parts.encoded with
    | none => exact ⟨s, rfl, named, Nat.le_add_right _ _⟩
    | some data =>
      rw [decoded] at ample
      dsimp only [Option.elim_some] at ample ⊢
      obtain ⟨listed', starts', made⟩ := picture_made sound starts listed read decoded
      obtain ⟨assets', stored, named', bytes⟩ := storePicture_ok sound named listed' starts' made
      rw [stored]
      refine ⟨_, rfl, named', ?_⟩
      show assetBytes assets' ≤ _
      omega

theorem inlineLoop_ok {cap : Nat} {uris : List Text} {s : Inlined} (named : Named media seeds s.1)
    (starts : ∀ uri ∈ uris, text "data:image/" <+: uri) (listed : ∀ uri ∈ uris, uri ∈ seeds)
    (ample : assetBytes s.1 + (uris.map media.uriBytes).sum ≤ cap) :
    ∃ s', uris.foldlM (media.inlineImage cap) s = .ok s' ∧ Named media seeds s'.1 ∧
      assetBytes s'.1 ≤ assetBytes s.1 + (uris.map media.uriBytes).sum := by
  induction uris generalizing s with
  | nil => exact ⟨s, rfl, named, Nat.le_refl _⟩
  | cons uri rest ih =>
    rw [List.map_cons, List.sum_cons] at ample ⊢
    have here : assetBytes s.1 + media.uriBytes uri ≤ cap := by omega
    obtain ⟨s', first, named', bytes⟩ := inlineImage_ok sound named
      (starts uri List.mem_cons_self) (listed uri List.mem_cons_self) here
    have left : assetBytes s'.1 + (rest.map media.uriBytes).sum ≤ cap := by omega
    obtain ⟨s'', others, named'', bytes'⟩ := ih named'
      (fun u mem => starts u (List.mem_cons_of_mem _ mem))
      (fun u mem => listed u (List.mem_cons_of_mem _ mem)) left
    refine ⟨s'', ?_, named'', by omega⟩
    rw [List.foldlM_cons, first]
    exact others

/-- **The pictures of a table are stored**, within the cap. -/
theorem inlineImages_ok {cap : Nat} {html : Text} {assets : Assets} (named : Named media seeds assets)
    (listed : ∀ uri ∈ pictureUris html, uri ∈ seeds)
    (ample : assetBytes assets + ((pictureUris html).map media.uriBytes).sum ≤ cap) :
    ∃ html' assets', media.inlineImages cap html assets = .ok (html', assets') ∧
      Named media seeds assets' ∧
      assetBytes assets' ≤ assetBytes assets + ((pictureUris html).map media.uriBytes).sum := by
  unfold inlineImages
  split
  · exact ⟨html, assets, rfl, named, Nat.le_add_right _ _⟩
  · obtain ⟨s, done, named', bytes⟩ := inlineLoop_ok sound (s := (assets, [])) named
      (fun _ mem => pictureUris_starts mem) listed ample
    rw [done]
    exact ⟨_, _, rfl, named', bytes⟩

end

/-! ## Crops -/

/-- A side of a crop on a raster that matches the page. -/
theorem crop_side {low high : Int} {scale side : Rat} {maximum : Nat} (nonneg : 0 ≤ low)
    (apart : low < high) (inside : (high : Rat) ≤ side) (positive : 0 < scale)
    (matched : ⌈side * scale⌉ = maximum) :
    clampPixel ⌊low * scale⌋ maximum < clampPixel ⌈high * scale⌉ maximum ∧
      clampPixel ⌈high * scale⌉ maximum ≤ maximum := by
  have floor : 0 ≤ ⌊(low : Rat) * scale⌋ :=
    Int.floor_nonneg.mpr (mul_nonneg (by exact_mod_cast nonneg) positive.le)
  have lt : ⌊(low : Rat) * scale⌋ < ⌈(high : Rat) * scale⌉ := by
    rw [Int.lt_ceil]
    calc (⌊(low : Rat) * scale⌋ : Rat) ≤ low * scale := Int.floor_le _
      _ < high * scale := mul_lt_mul_of_pos_right (by exact_mod_cast apart) positive
  have ceil : ⌈(high : Rat) * scale⌉ ≤ maximum := by
    rw [← matched]
    exact Int.ceil_le_ceil (mul_le_mul_of_nonneg_right inside positive.le)
  unfold clampPixel
  omega

theorem expectedPixels_eq {points scale : Rat} {pixels : Nat} (small : pixels ≤ 65535)
    (is : expectedPixels points scale = .ok pixels) : ⌈points * scale⌉ = pixels := by
  unfold expectedPixels at is
  dsimp only at is
  split at is
  · cases is
  · have same := Except.ok.inj is
    omega

/-- A rectangle that a JPEG can hold. -/
structure Drawable (rect : PixelRect) : Prop where
  width : 0 < rect.width
  widthMax : rect.width ≤ 65535
  height : 0 < rect.height
  heightMax : rect.height ≤ 65535

/-- The crop of a box of points is not empty. -/
theorem cropRect_ok {raster : Raster} (fits : raster.Fits) {point : Bbox}
    (inside : point.Inside raster.size) : ∃ rect, cropRect raster point = some rect ∧ Drawable rect := by
  obtain ⟨across, wide⟩ := crop_side inside.left inside.across inside.right fits.scale fits.width
  obtain ⟨down, high⟩ := crop_side inside.top inside.down inside.bottom fits.scale fits.height
  have widthMax := fits.widthMax
  have heightMax := fits.heightMax
  refine ⟨_, if_neg (not_or.mpr ⟨not_le.mpr across, not_le.mpr down⟩), ?_, ?_, ?_, ?_⟩
  all_goals dsimp only; omega

/-- The encoder takes every picture that a JPEG can hold. -/
def Encodes (media : Media) : Prop :=
  ∀ rect, Drawable rect → ∃ data, media.encoder rect = .ok data

/-- The bytes that a crop is counted with: those of its pixels, and of its JPEG. -/
def cropBytes (media : Media) (rect : PixelRect) : Nat :=
  rect.width * rect.height * 3 + match media.encoder rect with
    | .ok data => data.length
    | .error _ => 0

/-- A crop that is not empty is stored, within the cap. -/
theorem crop_ok {seeds : List Text} {raster : Raster} {slicePageIdx cap : Nat} {tag : String}
    {kind : AssetKind} {point : Bbox} {assets : Assets} {rect : PixelRect} {data : List UInt8}
    (named : Named media seeds assets) (cut : cropRect raster point = some rect)
    (encoded : media.encoder rect = .ok data)
    (listed : media.cropSeed raster slicePageIdx tag point ∈ seeds)
    (other : ¬ text "data:image/" <+: media.cropSeed raster slicePageIdx tag point)
    (ample : assetBytes assets + media.cropBytes rect ≤ cap) :
    ∃ name assets', media.crop raster slicePageIdx cap tag kind point assets = .ok (name, assets') ∧
      Named media seeds assets' ∧ assetBytes assets' ≤ assetBytes assets + media.cropBytes rect := by
  unfold cropBytes at ample ⊢
  rw [encoded] at ample ⊢
  dsimp only at ample ⊢
  unfold crop
  rw [cut]
  dsimp only
  split
  · exact ⟨_, assets, rfl, named, Nat.le_add_right _ _⟩
  · rw [if_neg (by omega)]
    unfold encodeJpeg
    rw [encoded]
    dsimp only
    rw [if_neg (by omega)]
    refine ⟨_, _, rfl, named.cons listed (.crop data other), ?_⟩
    show data.length + assetBytes assets ≤ _
    omega

end Media

end Mineru.Builders
