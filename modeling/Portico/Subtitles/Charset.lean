import Portico.Lib.Utf
import Portico.Lib.Rounding

/-!
# Subtitles: the character set of a file

A subtitle file is read as UTF-16, as UTF-8 or by one of the legacy tables, whatever its bytes look like
most. The tables and the score of a text are the platform's.

## Main results

* `decodeSubtitleText_eq`: what is decoded is what the file holds
-/

namespace Portico.Subtitles

open Utf

def maxInputBytes : ℕ := 4194304

inductive Fault
  | capacity
  | text
  | input
  | unsupported
deriving DecidableEq, Repr

/-- The marks that begin a text in UTF-16, in its order of bytes, and one in UTF-8. -/
def markLE : List UInt8 := [0xFF, 0xFE]
def markBE : List UInt8 := [0xFE, 0xFF]
def mark8 : List UInt8 := [0xEF, 0xBB, 0xBF]

/-- The text of units, which are checked first. -/
def decodeUnits (us : List ℕ) : Except Fault (List UInt8) :=
  if !paired us then .error .text else .ok (encodeRunes (utf16Decode us))

/-- **Unicode only**: UTF-16 after a mark, or UTF-8. -/
def decodeText (raw : List UInt8) : Except Fault (List UInt8) :=
  if raw = [] || maxInputBytes < raw.length then .error .capacity
  else
    let checked : Except Fault (List UInt8) :=
      if markLE.isPrefixOf raw || markBE.isPrefixOf raw then
        let body := raw.drop 2
        if body.length % 2 ≠ 0 then .error .text else decodeUnits (units (!markLE.isPrefixOf raw) body)
      else .ok raw
    match checked with
    | .error f => .error f
    | .ok out => if maxInputBytes < out.length || !utf8Valid out then .error .text else .ok out

/-! ## Guessing -/

/-- The order of bytes of a text in UTF-16 without a mark: its bytes at even or at odd places are often
zero. -/
def looksWide (raw : List UInt8) : Option Bool :=
  if raw.length % 2 = 0 then
    let sample := raw.take 4096
    let even := (zeroCounts sample).1
    let odd := (zeroCounts sample).2
    if sample.length / 8 < max even odd && min even odd < max even odd / 4 then some (odd < even)
    else none
  else none

/-- The legacy tables, the score of a text for a language, and the key of a language. -/
structure Charsets where
  decode : String → List UInt8 → Option (List UInt8)
  charsetScore : List UInt8 → String → Number
  subtitleLanguageKey : String → String

def subtitleCharsets : List (String × String) :=
  [("windows-1252", "en fr de es pt it nl da sv no fi is"),
    ("windows-1250", "pl cs sk hu ro hr sl bs sq"),
    ("windows-1251", "ru uk be bg mk sr kk"),
    ("windows-1253", "el"), ("windows-1254", "tr az"),
    ("windows-1255", "he yi"), ("windows-1256", "ar fa ur"),
    ("windows-1257", "et lv lt"), ("windows-1258", "vi"),
    ("iso-8859-1", "en fr de es pt it"),
    ("iso-8859-2", "pl cs sk hu ro hr sl"),
    ("iso-8859-3", "mt tr"), ("iso-8859-4", "et lv lt"),
    ("iso-8859-5", "ru bg sr mk"), ("iso-8859-6", "ar"),
    ("iso-8859-7", "el"), ("iso-8859-8", "he"),
    ("iso-8859-9", "tr"), ("iso-8859-10", "is no sv fi"),
    ("iso-8859-13", "lv lt et"), ("iso-8859-14", "ga cy"),
    ("iso-8859-15", "en fr de es pt it"), ("iso-8859-16", "ro pl hu"),
    ("koi8-r", "ru"), ("koi8-u", "uk"),
    ("shift-jis", "ja"), ("euc-jp", "ja"),
    ("gb18030", "zh"), ("gbk", "zh"),
    ("big5", "zh"), ("euc-kr", "ko"),
    ("windows-874", "th")]

def hasInfix (part s : String) : Bool := s.toList.tails.any part.toList.isPrefixOf

/-- The score of a candidate's reading of the sample, with what the language is worth. -/
def candidateScore (c : Charsets) (language name languages : String)
    (decoded : List UInt8) : Number :=
  let hint := c.subtitleLanguageKey language
  let base := c.charsetScore decoded hint
  let spoken := hasInfix (" " ++ hint ++ " ") (" " ++ languages ++ " ")
  let hinted := if hint ≠ "" && spoken then base + 12 else base
  if hint = "zh" then
    if hasInfix "tw" language.toLower || hasInfix "hant" language.toLower then
      if name = "big5" then hinted + 15 else hinted
    else if name = "gb18030" then hinted + 3 else hinted
  else hinted

/-- The candidate that reads the sample best; the first of those that do. -/
def bestCharset (c : Charsets) (raw : List UInt8) (language : String) : String :=
  let sample := raw.take 65536
  (subtitleCharsets.foldl (fun best candidate =>
    match c.decode candidate.1 sample with
    | none => best
    | some decoded =>
      let score := candidateScore c language candidate.1 candidate.2 decoded
      if best.1 < score then (score, candidate.1) else best)
    (Number.nearest (-10 ^ 30), "windows-1252")).2

/-- **The text of a file**, and the name of its character set. -/
def decodeSubtitleText (c : Charsets) (raw : List UInt8) (language : String) :
    Except Fault (List UInt8 × String) :=
  if raw = [] || maxInputBytes < raw.length then .error .capacity
  else if markLE.isPrefixOf raw || markBE.isPrefixOf raw then
    (decodeText raw).map (·, if markBE.isPrefixOf raw then "utf-16be" else "utf-16le")
  else match looksWide raw with
    | some bigEndian =>
      (decodeText ((if bigEndian then markBE else markLE) ++ raw)).map
        (·, if bigEndian then "utf-16be" else "utf-16le")
    | none =>
      if utf8Valid raw then .ok (if mark8.isPrefixOf raw then raw.drop 3 else raw, "utf-8")
      else
        let best := bestCharset c raw language
        match c.decode best raw with
        | none => .error .text
        | some out =>
          if !utf8Valid out then .error .text
          else if maxInputBytes * 3 < out.length then .error .capacity
          else .ok (out, best)

/-! ## What a file holds -/

/-- **The text that a file holds**, in UTF-8 and without its mark. -/
def content (c : Charsets) (raw : List UInt8) (language : String) : List UInt8 :=
  if markLE.isPrefixOf raw then encodeRunes (utf16Decode (units false (raw.drop 2)))
  else if markBE.isPrefixOf raw then encodeRunes (utf16Decode (units true (raw.drop 2)))
  else match looksWide raw with
    | some bigEndian => encodeRunes (utf16Decode (units bigEndian raw))
    | none =>
      if utf8Valid raw then if mark8.isPrefixOf raw then raw.drop 3 else raw
      else (c.decode (bestCharset c raw language) raw).getD []

variable {c : Charsets} {raw text : List UInt8} {language enc : String}

theorem decodeUnits_eq {us : List ℕ} (h : decodeUnits us = .ok text) :
    text = encodeRunes (utf16Decode us) := by
  unfold decodeUnits at h
  split_ifs at h
  exact (Except.ok.inj h).symm

theorem decodeText_eq (hmark : (markLE.isPrefixOf raw || markBE.isPrefixOf raw) = true)
    (h : decodeText raw = .ok text) :
    text = encodeRunes (utf16Decode (units (!markLE.isPrefixOf raw) (raw.drop 2))) ∧
      utf8Valid text = true := by
  unfold decodeText at h
  rw [hmark] at h
  simp only [if_true] at h
  split_ifs at h with hcapacity hodd
  split at h
  · cases h
  · rename_i out hout
    split_ifs at h with hvalid
    obtain rfl := Except.ok.inj h
    simp only [Bool.or_eq_true, not_or, Bool.not_eq_true', Bool.not_eq_false] at hvalid
    exact ⟨decodeUnits_eq hout, hvalid.2⟩

theorem decodeText_mark {bigEndian : Bool} {body : List UInt8}
    (h : decodeText ((if bigEndian then markBE else markLE) ++ body) = .ok text) :
    text = encodeRunes (utf16Decode (units bigEndian body)) ∧ utf8Valid text = true := by
  cases bigEndian with
  | true => exact decodeText_eq rfl h
  | false => exact decodeText_eq rfl h

theorem valid_drop_mark (h : utf8Valid (mark8 ++ text) = true) : utf8Valid text = true := by
  simpa [mark8, utf8Valid, isTail] using h

theorem map_ok {α β : Type} {x : Except Fault α} {f : α → β} {b : β} (h : x.map f = .ok b) :
    ∃ a, x = .ok a ∧ f a = b := by
  cases x with
  | error e => cases h
  | ok a => exact ⟨a, rfl, Except.ok.inj h⟩

/-- **What is decoded** is what the file holds. -/
theorem decodeSubtitleText_eq (h : decodeSubtitleText c raw language = .ok (text, enc)) :
    text = content c raw language ∧ utf8Valid text = true := by
  unfold decodeSubtitleText at h
  unfold content
  by_cases hcapacity : (decide (raw = []) || decide (maxInputBytes < raw.length)) = true
  · rw [if_pos hcapacity] at h
    cases h
  rw [if_neg hcapacity] at h
  by_cases hmark : (markLE.isPrefixOf raw || markBE.isPrefixOf raw) = true
  · rw [if_pos hmark] at h
    obtain ⟨out, hout, heq⟩ := map_ok h
    obtain ⟨rfl, -⟩ := Prod.mk.inj heq
    obtain ⟨htext, hvalid⟩ := decodeText_eq hmark hout
    refine ⟨?_, hvalid⟩
    cases hle : markLE.isPrefixOf raw with
    | true => rw [htext, hle]; rfl
    | false =>
      rw [hle, Bool.false_or] at hmark
      rw [htext, hle, if_neg Bool.false_ne_true, if_pos hmark]
      rfl
  · rw [if_neg hmark] at h
    simp only [Bool.or_eq_true, not_or, Bool.not_eq_true] at hmark
    rw [hmark.1, hmark.2, if_neg Bool.false_ne_true, if_neg Bool.false_ne_true]
    split at h
    · rename_i bigEndian hwide
      obtain ⟨out, hout, heq⟩ := map_ok h
      obtain ⟨rfl, -⟩ := Prod.mk.inj heq
      exact decodeText_mark hout
    · rename_i hnarrow
      by_cases hvalid : utf8Valid raw = true
      · rw [if_pos hvalid] at h ⊢
        obtain ⟨rfl, -⟩ := Prod.mk.inj (Except.ok.inj h)
        refine ⟨rfl, ?_⟩
        split_ifs with hmark8
        · obtain ⟨body, rfl⟩ := List.isPrefixOf_iff_prefix.mp hmark8
          exact valid_drop_mark hvalid
        · exact hvalid
      · rw [if_neg hvalid] at h ⊢
        simp only at h
        split at h
        · cases h
        · rename_i out hout
          split_ifs at h with hbad hlarge
          obtain ⟨rfl, -⟩ := Prod.mk.inj (Except.ok.inj h)
          rw [hout]
          exact ⟨rfl, by simpa using hbad⟩

/-! ## Texts that are decoded again -/

/-- A text that nothing is guessed about or taken from: not empty, not too large, without a mark, and not
like UTF-16. -/
structure Steady (text : List UInt8) : Prop where
  nonempty : text ≠ []
  small : text.length ≤ maxInputBytes
  narrow : looksWide text = none
  unmarked : mark8.isPrefixOf text = false

theorem not_mark_of_valid (h : utf8Valid text = true) :
    markLE.isPrefixOf text = false ∧ markBE.isPrefixOf text = false := by
  constructor <;> by_contra hmark <;> rw [Bool.not_eq_false] at hmark <;>
    obtain ⟨body, rfl⟩ := List.isPrefixOf_iff_prefix.mp hmark <;> simp [markLE, markBE, utf8Valid] at h

theorem zeros_of_looksWide {bigEndian : Bool} (h : looksWide text = some bigEndian) :
    0 < text.count 0 := by
  unfold looksWide at h
  by_cases heven : text.length % 2 = 0
  swap
  · rw [if_neg heven] at h
    cases h
  rw [if_pos heven] at h
  simp only at h
  split_ifs at h with hwide
  simp only [Bool.and_eq_true, decide_eq_true_eq] at hwide
  have hsample := zeroCounts_sum (text.take 4096)
  have hle : (text.take 4096).count 0 ≤ text.count 0 := (List.take_sublist 4096 text).count_le 0
  omega

theorem Steady.decode (h : Steady text) (hvalid : utf8Valid text = true) (language : String) :
    decodeSubtitleText c text language = .ok (text, "utf-8") := by
  obtain ⟨hle, hbe⟩ := not_mark_of_valid hvalid
  unfold decodeSubtitleText
  rw [hle, hbe, h.narrow, h.unmarked, if_neg (by simp [h.nonempty, h.small]), if_neg (by decide)]
  simp only [hvalid, if_true]
  rfl

/-- **A text that is decoded again** stays what it is when nothing is guessed about it, and only then. -/
theorem decode_again (h : utf8Valid text = true) :
    (∃ enc, decodeSubtitleText c text language = .ok (text, enc)) ↔ Steady text := by
  obtain ⟨hle, hbe⟩ := not_mark_of_valid h
  constructor
  · rintro ⟨enc, hdecode⟩
    unfold decodeSubtitleText at hdecode
    by_cases hcapacity : (decide (text = []) || decide (maxInputBytes < text.length)) = true
    · rw [if_pos hcapacity] at hdecode
      cases hdecode
    rw [if_neg hcapacity, hle, hbe, if_neg (by decide)] at hdecode
    simp only [Bool.or_eq_true, decide_eq_true_eq, not_or, not_lt] at hcapacity
    split at hdecode
    · rename_i bigEndian hwide
      obtain ⟨out, hout, heq⟩ := map_ok hdecode
      obtain ⟨rfl, -⟩ := Prod.mk.inj heq
      exact absurd (decodeText_mark hout).1.symm (encode_ne_of_zeros (zeros_of_looksWide hwide))
    · rename_i hnarrow
      rw [if_pos h] at hdecode
      obtain ⟨htext, -⟩ := Prod.mk.inj (Except.ok.inj hdecode)
      refine ⟨hcapacity.1, hcapacity.2, hnarrow, ?_⟩
      by_contra hmark
      rw [Bool.not_eq_false] at hmark
      rw [if_pos hmark] at htext
      have hlength := congrArg List.length htext
      rw [List.length_drop] at hlength
      have hpos : 0 < text.length := List.length_pos_iff.mpr hcapacity.1
      omega
  · exact fun hsteady => ⟨_, hsteady.decode h language⟩

end Portico.Subtitles
