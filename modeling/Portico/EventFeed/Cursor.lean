import Mathlib

/-!
# Event cursors

A reader's position in the event ring is a number sealed for that reader under a key that lives in
one process. A key is replaced when it is old or has sealed its share; its successor leaves it one
turn of opening. A cursor that doesn't open isn't an error: its reader starts over.

## Main results

* `eq_of_opened`: an opened cursor says the position it was sealed with
-/

namespace Portico.EventFeed

def cursorLifeMS : ℤ := 24 * 60 * 60 * 1000

def cursorKeySeals : ℕ := 2 ^ 24

/-- Bytes of a cursor on the wire: the prefix, and twelve of nonce, thirty-two of text and sixteen
of tag in base 64. -/
def cursorBytes : ℕ := 3 + (12 + 32 + 16) * 8 / 6

/-- What is hashed into a cursor's binding. -/
structure Binding where
  authority : String
  accountID : String
  profileID : String
  device : String
  administrative : Bool
  deriving DecidableEq

/-- A sealed cursor: the key that sealed it, and what it says. -/
structure Cursor where
  key : ℕ
  position : ℤ
  binding : Binding
  expiresMS : ℤ
  deriving DecidableEq

/-- The cursor of a request: none, one that no process sealed, or a sealed one. -/
inductive Raw where
  | empty
  | foreign (text : String)
  | sealed (c : Cursor)
  deriving DecidableEq

/-- The keys of a process: `made` counts those it drew. -/
structure CursorKeys where
  current : Option ℕ := none
  previous : Option ℕ := none
  bornMS : ℤ := 0
  seals : ℕ := 0
  made : ℕ := 0
  deriving DecidableEq

variable {k : CursorKeys} {now : ℤ} {position : ℤ} {b : Binding} {c : Cursor}

/-- The current key is spent, or there is none. -/
def CursorKeys.spent (k : CursorKeys) (now : ℤ) : Bool :=
  decide (k.current = none) || decide (k.seals ≥ cursorKeySeals) ||
    decide (now - k.bornMS ≥ cursorLifeMS)

/-- The key to seal with, after the rotation that is due. -/
def CursorKeys.sealing (k : CursorKeys) (now : ℤ) : ℕ × CursorKeys :=
  if k.spent now then
    (k.made, ⟨some k.made, k.current, now, 1, k.made + 1⟩)
  else (k.current.getD 0, { k with seals := k.seals + 1 })

def CursorKeys.seal (k : CursorKeys) (position : ℤ) (b : Binding) (now : ℤ) : Cursor × CursorKeys :=
  (⟨(k.sealing now).1, position, b, now + cursorLifeMS⟩, (k.sealing now).2)

/-- The position of a cursor this process sealed for this binding, before it expires. -/
def CursorKeys.opened (k : CursorKeys) (raw : Raw) (b : Binding) (now : ℤ) : Option ℤ :=
  match raw with
  | .sealed c =>
    if k.current = some c.key ∨ k.previous = some c.key then
      if c.binding ≠ b ∨ c.expiresMS ≤ now ∨ c.position < 0 then none else some c.position
    else none
  | _ => none

@[simp] theorem position_seal : (k.seal position b now).1.position = position := rfl

@[simp] theorem binding_seal : (k.seal position b now).1.binding = b := rfl

theorem eq_of_opened {raw : Raw} (h : k.opened raw b now = some position) :
    ∃ c, raw = .sealed c ∧ c.position = position ∧ c.binding = b ∧ 0 ≤ position := by
  unfold CursorKeys.opened at h
  split at h
  · rename_i c
    split_ifs at h with hkey hbad
    simp only [not_or, ne_eq, not_not, not_le, not_lt] at hbad
    obtain ⟨hb, -, hposition⟩ := hbad
    have heq := Option.some.inj h
    exact ⟨c, rfl, heq, hb, heq ▸ hposition⟩
  · cases h

end Portico.EventFeed
