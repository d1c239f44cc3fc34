import Portico.Subtitles.Charset

/-!
# Subtitles: what is stored of a file

A file is decoded first, and what was decoded is handed to parsers that decode it again.

## Main results

* `decoded_twice`: when decoding again changes nothing
* `second_mark`: a text that begins with two marks loses both
-/

namespace Portico.Subtitles

inductive Format
  | pgs
  | sup
  | vobsub
  | idx
  | ass
  | ssa
  | srt
  | vtt
  | smi
  | sami
  | ttml
  | dfxp
  | other
deriving DecidableEq, Repr

def maxBinaryBytes : ℕ := 536870912

def textFormat : Format → Bool
  | .srt | .vtt | .ass | .ssa | .smi | .sami | .ttml | .dfxp => true
  | _ => false

structure RenderAsset where
  format : Format
  data : List UInt8
  companion : List UInt8
  encoding : String
  textOnly : Bool
  authored : List UInt8
deriving DecidableEq, Repr

/-- What is stored: the cues of a text with how many were skipped, or an asset to be burned in. -/
inductive Asset (Cue : Type)
  | document (cues : List Cue) (skipped : ℕ)
  | render (asset : RenderAsset)

/-- What the parsers make of a text that was decoded, with the stored form of cues. -/
structure Parsers (Cue : Type) where
  cues : Format → List UInt8 → ℤ → Except Fault (List Cue)
  timings : Format → List UInt8 → ℕ
  textDocument : List Cue → Except Fault (List Cue)
  validateASS : List UInt8 → ℤ → Except Fault Unit
  assCues : List UInt8 → ℤ → Except Fault (List Cue)
  validateIDX : List UInt8 → Except Fault Unit
  validatePGS : List UInt8 → Except Fault Unit

/-- How a file is decoded: its text, and the name of its character set. -/
abbrev Decoder := List UInt8 → String → Except Fault (List UInt8 × String)

variable {Cue : Type} (p : Parsers Cue) (decode : Decoder)

def assetJSON (format : Format) (data companion : List UInt8) : Except Fault (Asset Cue) :=
  if maxBinaryBytes < data.length + companion.length then .error .capacity
  else .ok (.render ⟨format, data, companion, "", false, []⟩)

def decodeLoosely (raw : List UInt8) : Except Fault (List UInt8) := (decode raw "").map Prod.fst

def parseTolerant (raw : List UInt8) (format : Format) (durationUS : ℤ) : Except Fault (List Cue) :=
  (decodeLoosely decode raw).bind fun text => p.cues format text durationUS

def parseASSAsText (raw : List UInt8) (durationUS : ℤ) : Except Fault (List Cue) :=
  (decodeLoosely decode raw).bind fun text => p.assCues text durationUS

/-- A text stays a text, with how many of its timings came to nothing. -/
def canonicalPlain (raw : List UInt8) (format : Format) (durationUS : ℤ) :
    Except Fault (Asset Cue) := do
  let cues ← parseTolerant p decode raw format durationUS
  let stored ← p.textDocument cues
  let decoded := (decodeLoosely decode raw).toOption.getD []
  return .document stored (p.timings format decoded - cues.length)

/-- A styled text is burned in; one that isn't well formed is only kept if it has cues. -/
def canonicalASS (raw : List UInt8) (format : Format) (durationUS : ℤ) :
    Except Fault (Asset Cue) := do
  let (text, enc) ← decode raw ""
  match p.validateASS text durationUS with
  | .error .text =>
    match parseASSAsText p decode text durationUS with
    | .error _ => throw .text
    | .ok _ => return .render ⟨format, text, [], enc, true, raw⟩
  | .error f => throw f
  | .ok () =>
    match assetJSON format text [] with
    | .ok (.render a) => return .render { a with authored := raw, encoding := enc }
    | x => x

/-- **What is stored** of a file. -/
def canonicalAsset (raw companion : List UInt8) (format : Format) (durationUS : ℤ) :
    Except Fault (Asset Cue) :=
  match format with
  | .pgs | .sup => do
    if companion ≠ [] then throw .input
    p.validatePGS raw
    assetJSON .pgs raw []
  | .vobsub | .idx => do
    let text ← decodeLoosely decode raw
    if companion.length < 4 || maxBinaryBytes < companion.length || companion.take 4 ≠ [0, 0, 1, 0xBA] then
      throw .text
    p.validateIDX text
    assetJSON .vobsub text companion
  | .ass | .ssa =>
    if companion ≠ [] then .error .input else canonicalASS p decode raw format durationUS
  | .srt | .vtt | .smi | .sami | .ttml | .dfxp =>
    if companion ≠ [] then .error .input else canonicalPlain p decode raw format durationUS
  | .other => .error .unsupported

/-- What a styled text was authored as. -/
def Asset.author (raw : List UInt8) (enc : String) : Asset Cue → Asset Cue
  | .render a => .render { a with authored := raw, encoding := enc }
  | x => x

/-- Formats that are texts, and so are decoded. -/
def decodes (format : Format) : Bool := textFormat format || format = .idx || format = .vobsub

/-- **What is stored** of a file in the character set of a language: it is decoded by one decoder, and
the parsers decode what that made by another. -/
def canonicalAssetWithLanguage (again : Decoder) (raw companion : List UInt8) (format : Format)
    (durationUS : ℤ) (language : String) : Except Fault (Asset Cue) := do
  let (text, enc) ← if decodes format then decode raw language else .ok (raw, "")
  let stored ← canonicalAsset p again text companion format durationUS
  return if format = .ass || format = .ssa then stored.author raw enc else stored

/-- Parsing a decoded text directly. -/
def plain : Decoder := fun text _ => .ok (text, "utf-8")

variable {p} {again : Decoder} {c : Charsets} {raw text companion : List UInt8} {format : Format}
  {durationUS : ℤ} {language enc : String}

/-- Parsers that decode a text to itself make of it what they make of it directly. -/
theorem canonicalAsset_congr (h : ∀ language, again text language = .ok (text, "utf-8")) :
    canonicalAsset p again text companion format durationUS =
      canonicalAsset p plain text companion format durationUS := by
  have hloosely : decodeLoosely again text = decodeLoosely plain text := by
    unfold decodeLoosely
    rw [h]
    rfl
  have hcues : parseTolerant p again text format durationUS = parseTolerant p plain text format durationUS := by
    unfold parseTolerant
    rw [hloosely]
  have hass : parseASSAsText p again text durationUS = parseASSAsText p plain text durationUS := by
    unfold parseASSAsText
    rw [hloosely]
  have hplain : plain text "" = .ok (text, "utf-8") := rfl
  cases format <;> unfold canonicalAsset <;> simp only
  case vobsub | idx => rw [hloosely]
  case ass | ssa =>
    unfold canonicalASS
    simp only [h, hplain, bind, Except.bind, hass]
  case srt | vtt | smi | sami | ttml | dfxp =>
    unfold canonicalPlain
    rw [hcues, hloosely]

/-- **Decoding twice.** Decoding the text of a file again changes nothing, and what is stored is what
parsing it directly would store, just when nothing is guessed about the text that the file holds. -/
theorem decoded_twice (h : decodeSubtitleText c raw language = .ok (text, enc)) :
    ((∃ enc', decodeSubtitleText c text language = .ok (text, enc')) ∧
      ∀ (Cue : Type) (p : Parsers Cue) (companion : List UInt8) (format : Format) (durationUS : ℤ),
        canonicalAssetWithLanguage p (decodeSubtitleText c) (decodeSubtitleText c) raw companion format
            durationUS language =
          canonicalAssetWithLanguage p (decodeSubtitleText c) plain raw companion format durationUS
            language) ↔
      Steady (content c raw language) := by
  obtain ⟨hcontent, hvalid⟩ := decodeSubtitleText_eq h
  rw [← hcontent]
  constructor
  · exact fun hboth => (decode_again hvalid).mp hboth.1
  · intro hsteady
    refine ⟨⟨_, hsteady.decode hvalid language⟩, fun Cue p companion format durationUS => ?_⟩
    have hagain : canonicalAsset p (decodeSubtitleText c) text companion format durationUS =
        canonicalAsset p plain text companion format durationUS :=
      canonicalAsset_congr fun language => hsteady.decode hvalid language
    unfold canonicalAssetWithLanguage
    cases hformat : decodes format with
    | true => simp only [if_true, h, bind, Except.bind, hagain]
    | false =>
      -- the other formats aren't decoded at all
      have hraw : canonicalAsset p (decodeSubtitleText c) raw companion format durationUS =
          canonicalAsset p plain raw companion format durationUS := by
        cases format <;> first | rfl | cases hformat
      simp only [Bool.false_eq_true, if_false, bind, Except.bind, hraw]

/-- A text after two marks loses one when it is decoded, and the other when it is decoded again. -/
theorem second_mark :
    ¬ ∀ (c : Charsets) (raw text : List UInt8) (language enc : String),
      decodeSubtitleText c raw language = .ok (text, enc) →
      ∃ enc', decodeSubtitleText c text language = .ok (text, enc') := by
  intro h
  have hagain := h ⟨fun _ _ => none, fun _ _ => 0, id⟩ [0xEF, 0xBB, 0xBF, 0xEF, 0xBB, 0xBF, 0x68]
    [0xEF, 0xBB, 0xBF, 0x68] "" "utf-8" (by decide +kernel)
  obtain ⟨enc', henc⟩ := hagain
  have hlost : decodeSubtitleText ⟨fun _ _ => none, fun _ _ => 0, id⟩ [0xEF, 0xBB, 0xBF, 0x68] "" =
      .ok ([0x68], "utf-8") := by decide +kernel
  rw [hlost] at henc
  cases henc

/-- A text after one mark is decoded to itself from then on. -/
theorem decoded_twice_mark :
    ∃ enc, decodeSubtitleText ⟨fun _ _ => none, fun _ _ => 0, id⟩ [0x68] "en" = .ok ([0x68], enc) :=
  have hfirst : decodeSubtitleText ⟨fun _ _ => none, fun _ _ => 0, id⟩ [0xEF, 0xBB, 0xBF, 0x68] "en" =
      .ok ([0x68], "utf-8") := by decide +kernel
  ((decoded_twice hfirst).mpr ⟨by decide, by decide, by decide, by decide⟩).1

end Portico.Subtitles
