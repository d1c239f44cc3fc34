import Portico.CursorSigning.Keyring

/-!
# Continuations across rotations

A keyring covers a token when the key that signed it is the current one, or the one before and the
token expires no later than that, or the token has expired. A rotation keeps the tokens covered that
were sealed by the time of its stamp; one that is sealed later with the key that it replaces may
outlive that key.

## Main definitions

* `Covers ring tokens clock`: the keyring opens the tokens while they live
* `Timely s e`: no token outlives its key, and tokens are presented as they are written
* `Unforged s e`: a token with a good tag was returned before
* `Lawful s e`: an opening is answered as it should

## Main results

* `cursors_lawful`: openings are lawful in every run whose steps are timely
-/

namespace Portico.CursorSigning

variable {π : Type} {codec : Codec π} {mac : Mac} {ttl rotateEvery : ℤ} {s t : System π}
  {tokens tokens' : List (Sealed π)} {ring signer : Signer} {clock clock' : ℤ} {m : Sealed π}

/-! ## Covered tokens -/

/-- The instant at which a token expires. -/
def Sealed.ends (m : Sealed π) : ℤ := m.envelope.expires * 1000000000

/-- A keyring opens a token while it lives. -/
def CoversOne (ring : Signer) (clock : ℤ) (m : Sealed π) : Prop :=
  m.key = ring.key ∨ (ring.previous = some m.key ∧ m.ends ≤ ring.previousUntil) ∨ m.ends ≤ clock

def Covers (ring : Signer) (tokens : List (Sealed π)) (clock : ℤ) : Prop :=
  ∀ m ∈ tokens, CoversOne ring clock m

theorem CoversOne.later (h : CoversOne ring clock m) (hle : clock ≤ clock') :
    CoversOne ring clock' m :=
  h.imp_right fun h => h.imp_right fun h => h.trans hle

theorem Covers.later (h : Covers ring tokens clock) (hle : clock ≤ clock') :
    Covers ring tokens clock' :=
  fun m hm => (h m hm).later hle

theorem Covers.concat (h : Covers ring tokens clock) (hm : CoversOne ring clock m) :
    Covers ring (tokens ++ [m]) clock := by
  intro m' hm'
  rcases List.mem_append.mp hm' with hm' | hm'
  · exact h m' hm'
  · obtain rfl := List.mem_singleton.mp hm'
    exact hm

theorem lt_ends {later : ℤ} (h : unix later < m.envelope.expires) : later < m.ends := by
  unfold unix at h
  unfold Sealed.ends
  omega

/-! ## Conditions -/

/-- No token outlives its key: none of those that a key file leaves to the key before it, and none that
is sealed with a key that was replaced. Tokens are presented as they are written. -/
def Timely (ttl : ℤ) (s : System π) : Event π → Prop
  | .writeRotate works => works = true → ∀ ring, s.rotation = some (.stamped ring) →
    ∀ m ∈ s.issued, ring.previous = some m.key → m.ends ≤ ring.previousUntil
  | .finishSeal id now _ _ => ∀ key, s.calls id = some (.sealing key) →
    ∀ limit, (key, limit) ∈ s.replaced → unix (now + ttl) * 1000000000 ≤ limit
  | .beginOpen _ token _ => Canonical token
  | _ => True

/-- A token whose tag is good under a key of the process was signed with it. -/
def Unforged (codec : Codec π) (mac : Mac) (s : System π) : Event π → Prop
  | .beginOpen _ token _ => ∀ raw sig key, parse token = some (raw, sig) → key < s.nextKey →
    sig = mac key raw → ∃ m ∈ s.issued, m.key = key ∧ codec.encode m.envelope = raw
  | _ => True

/-- An opening gives the position of a token that was returned, for its binding and before its expiry,
and of nothing else. -/
def Lawful (codec : Codec π) (mac : Mac) (s : System π) : Event π → Prop
  | .finishOpen id now later => s.clock ≤ now → now ≤ later →
    ∀ signer token binding known, s.calls id = some (.opening signer token binding known) →
    (∀ m ∈ known, m.token = token → m.envelope.binding = binding →
      unix later < m.envelope.expires →
      s.answer codec mac id now later = some (.ok m.envelope.position)) ∧
    ∀ position, s.answer codec mac id now later = some (.ok position) →
      ∃ m ∈ known, m.token = token ∧ m.envelope.binding = binding ∧
        unix later < m.envelope.expires ∧ m.envelope.position = position
  | _ => True

/-! ## The invariant -/

/-- A keyring whose key before the current one has no live tokens. -/
def Signer.Settled (signer : Signer) (clock : ℤ) : Prop :=
  signer.previous = none ∨ signer.previousUntil ≤ clock

/-- How a rotation stands to the key file and the keys in memory. -/
def System.Rotates (s : System π) (signer : Signer) : Prop :=
  match s.rotation with
  | none => s.disk = some signer
  | some (.read _ current _ previousLive) => s.disk = some signer ∧ current = signer.key ∧
    (previousLive = false → signer.Settled s.clock)
  | some (.stamped ring) => s.disk = some signer ∧ ring.previous = some signer.key ∧
    signer.Settled s.clock ∧ ring.key < s.nextKey
  | some (.written ring) => s.disk = some ring ∧ ring.previous = some signer.key ∧
    (signer.key, ring.previousUntil) ∈ s.replaced

/-- A key that is of the process. -/
def Signer.Known (signer : Signer) (nextKey : Key) : Prop :=
  signer.key < nextKey ∧ ∀ key, signer.previous = some key → key < nextKey

/-- What a call knows of the tokens and the keys. -/
def System.CallSound (s : System π) (codec : Codec π) (mac : Mac) : Call π → Prop
  | .sealing key => ∃ signer, s.memory = some signer ∧
    (key = signer.key ∨ ∃ limit, (key, limit) ∈ s.replaced)
  | .opening signer token _ known => Covers signer known s.clock ∧ known ⊆ s.issued ∧
    Canonical token ∧ ∀ raw sig, parse token = some (raw, sig) →
      ∀ key, key = signer.key ∨ signer.previous = some key → sig = mac key raw →
        ∃ m ∈ known, m.key = key ∧ codec.encode m.envelope = raw

structure System.Sound (s : System π) (codec : Codec π) (mac : Mac) : Prop where
  absent : s.disk = none → s.issued = [] ∧ s.memory = none
  stopped : s.memory = none → s.rotation = none ∧ ∀ id, s.calls id = none
  disk : ∀ ring, s.disk = some ring → Covers ring s.issued s.clock ∧ ring.Known s.nextKey
  memory : ∀ signer, s.memory = some signer → Covers signer s.issued s.clock ∧
    signer.Known s.nextKey ∧ s.Rotates signer
  replaced : ∀ key limit, (key, limit) ∈ s.replaced →
    (∃ ring, s.disk = some ring ∧ ring.previous = some key ∧ ring.previousUntil = limit) ∨
      limit ≤ s.clock
  calls : ∀ id call, s.calls id = some call → s.CallSound codec mac call
  issued : ∀ m ∈ s.issued, m.token = signed codec mac m.key m.envelope ∧
    m.envelope.version = 1 ∧ m.token.length ≤ 4096

/-! ## Steps -/

theorem System.CallSound.mono {call : Call π} (h : s.CallSound codec mac call)
    (hmemory : t.memory = s.memory) (hreplaced : s.replaced ⊆ t.replaced)
    (hissued : s.issued ⊆ t.issued) (hclock : s.clock ≤ t.clock) : t.CallSound codec mac call := by
  cases call with
  | sealing key =>
    obtain ⟨signer, hsigner, hkey⟩ := h
    exact ⟨signer, hmemory.trans hsigner, hkey.imp_right fun ⟨limit, hin⟩ => ⟨limit, hreplaced hin⟩⟩
  | opening signer token binding known =>
    obtain ⟨hcovers, hknown, hrest⟩ := h
    exact ⟨hcovers.later hclock, fun m hm => hissued (hknown hm), hrest⟩

theorem Signer.Settled.later (h : signer.Settled clock) (hle : clock ≤ clock') :
    signer.Settled clock' :=
  h.imp_right fun h => h.trans hle

namespace System.Sound

theorem empty : ({} : System π).Sound codec mac where
  absent _ := ⟨rfl, rfl⟩
  stopped _ := ⟨rfl, fun _ => rfl⟩
  disk _ h := nomatch h
  memory _ h := nomatch h
  replaced _ _ h := absurd h List.not_mem_nil
  calls _ _ h := nomatch h
  issued _ h := absurd h List.not_mem_nil

theorem tick (h : s.Sound codec mac) {now : ℤ} (hle : s.clock ≤ now) :
    ({ s with clock := now } : System π).Sound codec mac where
  absent := h.absent
  stopped := h.stopped
  disk ring hring := ⟨(h.disk ring hring).1.later hle, (h.disk ring hring).2⟩
  memory signer hsigner := by
    obtain ⟨hcovers, hknown, hrotates⟩ := h.memory signer hsigner
    refine ⟨hcovers.later hle, hknown, ?_⟩
    unfold Rotates at hrotates ⊢
    dsimp only
    cases hrotation : s.rotation with
    | none =>
      rw [hrotation] at hrotates
      exact hrotates
    | some rotation =>
      rw [hrotation] at hrotates
      cases rotation with
      | read onlyIfDue current createdAt previousLive =>
        exact ⟨hrotates.1, hrotates.2.1, fun hlive => (hrotates.2.2 hlive).later hle⟩
      | stamped ring => exact ⟨hrotates.1, hrotates.2.1, hrotates.2.2.1.later hle, hrotates.2.2.2⟩
      | written ring => exact hrotates
  replaced key limit hin := (h.replaced key limit hin).imp_right fun hlate => hlate.trans hle
  calls id call hcall := (h.calls id call hcall).mono rfl (fun _ hm => hm) (fun _ hm => hm) hle
  issued := h.issued

theorem setCall (h : s.Sound codec mac) (id : ℕ) {call : Option (Call π)}
    (hcall : ∀ c, call = some c → s.memory.isSome = true ∧ s.CallSound codec mac c) :
    (s.setCall id call).Sound codec mac where
  absent := h.absent
  stopped hnone := by
    refine ⟨(h.stopped hnone).1, fun id' => ?_⟩
    change (if id' = id then call else s.calls id') = none
    split_ifs
    · cases call with
      | none => rfl
      | some c =>
        have hrunning := (hcall c rfl).1
        change s.memory = none at hnone
        rw [hnone] at hrunning
        cases hrunning
    · exact (h.stopped hnone).2 id'
  disk := h.disk
  memory := h.memory
  replaced := h.replaced
  calls id' c hc := by
    change (if id' = id then call else s.calls id') = some c at hc
    split_ifs at hc
    · exact (hcall c hc).2
    · exact h.calls id' c hc
  issued := h.issued

theorem crash (h : s.Sound codec mac) : s.crash.Sound codec mac where
  absent hnone := ⟨(h.absent hnone).1, rfl⟩
  stopped _ := ⟨rfl, fun _ => rfl⟩
  disk := h.disk
  memory _ hsigner := nomatch hsigner
  replaced := h.replaced
  calls _ _ hcall := nomatch hcall
  issued := h.issued

theorem start {now : ℤ} (h : s.Sound codec mac) (hstart : s.start now = some t) :
    t.Sound codec mac := by
  unfold System.start at hstart
  split_ifs at hstart with hrefused
  simp only [not_or, Bool.not_eq_true, Option.isSome_eq_false_iff, Option.isNone_iff_eq_none,
    not_lt] at hrefused
  obtain ⟨hstopped, hle⟩ := hrefused
  obtain ⟨hrotation, hcalls⟩ := h.stopped hstopped
  split at hstart
  · -- the first key: nothing was sealed before
    rename_i hdisk
    obtain rfl := Option.some.inj hstart
    have hissued := (h.absent hdisk).1
    have hcovers : ∀ ring : Signer, Covers ring s.issued now := fun ring m hm => by
      rw [hissued] at hm
      cases hm
    constructor
    · exact fun hnone => nomatch hnone
    · exact fun hnone => nomatch hnone
    · rintro ring hring
      obtain rfl := Option.some.inj hring
      exact ⟨hcovers _, Nat.lt_succ_self _, fun key hkey => nomatch hkey⟩
    · rintro signer hsigner
      obtain rfl := Option.some.inj hsigner
      refine ⟨hcovers _, ⟨Nat.lt_succ_self _, fun key hkey => nomatch hkey⟩, ?_⟩
      unfold Rotates
      dsimp only
      rw [hrotation]
    · intro key limit hin
      rcases h.replaced key limit hin with ⟨ring, hring, -⟩ | hlate
      · rw [hdisk] at hring
        cases hring
      · exact Or.inr (hlate.trans hle)
    · intro id call hcall
      change s.calls id = some call at hcall
      rw [hcalls] at hcall
      cases hcall
    · exact h.issued
  · rename_i ring hdisk
    split_ifs at hstart with hload
    obtain rfl := Option.some.inj hstart
    have hticked := h.tick hle
    constructor
    · intro hnone
      exact absurd (hdisk.symm.trans hnone) (by simp)
    · exact fun hnone => nomatch hnone
    · exact hticked.disk
    · rintro signer hsigner
      obtain rfl := Option.some.inj hsigner
      obtain ⟨hcovers, hknown⟩ := hticked.disk ring hdisk
      refine ⟨hcovers, hknown, ?_⟩
      unfold Rotates
      dsimp only
      rw [hrotation]
      exact hdisk
    · exact hticked.replaced
    · intro id call hcall
      change s.calls id = some call at hcall
      rw [hcalls] at hcall
      cases hcall
    · exact h.issued

theorem beginSeal {id : ℕ} (h : s.Sound codec mac) (hbegin : s.beginSeal id = some t) :
    t.Sound codec mac := by
  unfold System.beginSeal at hbegin
  split_ifs at hbegin with hbusy
  obtain ⟨signer, hsigner, rfl⟩ := Option.map_eq_some_iff.mp hbegin
  apply h.setCall
  rintro c hc
  obtain rfl := Option.some.inj hc
  exact ⟨by simp [hsigner], signer, hsigner, Or.inl rfl⟩

theorem endCall (h : s.Sound codec mac) (id : ℕ) : (s.setCall id none).Sound codec mac :=
  h.setCall id fun _ hc => nomatch hc

theorem issue (h : s.Sound codec mac) (hrunning : s.memory ≠ none)
    (hdisk : ∀ ring, s.disk = some ring → CoversOne ring s.clock m)
    (hmemory : ∀ signer, s.memory = some signer → CoversOne signer s.clock m)
    (hm : m.token = signed codec mac m.key m.envelope ∧ m.envelope.version = 1 ∧
      m.token.length ≤ 4096) :
    ({ s with issued := s.issued ++ [m] } : System π).Sound codec mac where
  absent hnone := absurd (h.absent hnone).2 hrunning
  stopped := h.stopped
  disk ring hring := ⟨(h.disk ring hring).1.concat (hdisk ring hring), (h.disk ring hring).2⟩
  memory signer hsigner := by
    obtain ⟨hcovers, hrest⟩ := h.memory signer hsigner
    exact ⟨hcovers.concat (hmemory signer hsigner), hrest⟩
  replaced := h.replaced
  calls id call hcall :=
    (h.calls id call hcall).mono rfl (fun _ hk => hk) (List.subset_append_left _ _) le_rfl
  issued m' hm' := by
    rcases List.mem_append.mp hm' with hm' | hm'
    · exact h.issued m' hm'
    · obtain rfl := List.mem_singleton.mp hm'
      exact hm

/-- The key file is that of memory, or was written by the rotation that replaces it. -/
theorem disk_of_memory (h : s.Sound codec mac) (hsigner : s.memory = some signer) :
    s.disk = some signer ∨ ∃ ring, s.disk = some ring ∧ ring.previous = some signer.key ∧
      (signer.key, ring.previousUntil) ∈ s.replaced := by
  have hrotates := (h.memory signer hsigner).2.2
  unfold Rotates at hrotates
  split at hrotates
  · exact Or.inl hrotates
  · exact Or.inl hrotates.1
  · exact Or.inl hrotates.1
  · exact Or.inr ⟨_, hrotates⟩

/-- The keyrings cover a token that is sealed in time with a key that memory had. -/
theorem covers_timely (h : s.Sound codec mac) (hsigner : s.memory = some signer)
    (hkey : m.key = signer.key ∨ ∃ limit, (m.key, limit) ∈ s.replaced)
    (htimely : ∀ limit, (m.key, limit) ∈ s.replaced → m.ends ≤ limit) :
    (∀ ring, s.disk = some ring → CoversOne ring s.clock m) ∧ CoversOne signer s.clock m := by
  -- a key that was replaced is the one before, or its tokens have expired
  have hdisk : ∀ ring, s.disk = some ring → m.key = ring.key ∨ (∃ limit, (m.key, limit) ∈ s.replaced) →
      CoversOne ring s.clock m := by
    intro ring hring hkey
    rcases hkey with hkey | ⟨limit, hin⟩
    · exact Or.inl hkey
    · rcases h.replaced m.key limit hin with ⟨ring', hring', hprevious, rfl⟩ | hlate
      · obtain rfl := Option.some.inj (hring.symm.trans hring')
        exact Or.inr (Or.inl ⟨hprevious, htimely _ hin⟩)
      · exact Or.inr (Or.inr ((htimely limit hin).trans hlate))
  rcases h.disk_of_memory hsigner with hsame | ⟨ring, hring, hprevious, hin⟩
  · refine ⟨fun ring hring => ?_, hdisk signer hsame hkey⟩
    obtain rfl := Option.some.inj (hsame.symm.trans hring)
    exact hdisk signer hring hkey
  · refine ⟨fun ring' hring' => hdisk ring' hring' (Or.inr ?_), ?_⟩
    · rcases hkey with hkey | hkey
      · exact ⟨ring.previousUntil, hkey ▸ hin⟩
      · exact hkey
    · by_cases hcurrent : m.key = signer.key
      · exact Or.inl hcurrent
      · obtain ⟨limit, hlimit⟩ := hkey.resolve_left hcurrent
        rcases h.replaced m.key limit hlimit with ⟨ring', hring', hprevious', -⟩ | hlate
        · obtain rfl := Option.some.inj (hring.symm.trans hring')
          exact absurd (Option.some.inj (hprevious'.symm.trans hprevious)) hcurrent
        · exact Or.inr (Or.inr ((htimely limit hlimit).trans hlate))

theorem finishSeal {id : ℕ} {now : ℤ} {binding : Binding} {position : π} (h : s.Sound codec mac)
    (htimely : Timely ttl s (.finishSeal id now binding position))
    (hfinish : s.finishSeal codec mac ttl id now binding position = some t) :
    t.Sound codec mac := by
  unfold System.finishSeal at hfinish
  split_ifs at hfinish with hback
  split at hfinish
  · rename_i key hcall
    dsimp only at hfinish
    obtain ⟨signer, hsigner, hkey⟩ := h.calls id _ hcall
    have hdone : ({ s.setCall id none with clock := now } : System π).Sound codec mac :=
      (h.endCall id).tick (not_lt.mp hback)
    split at hfinish
    · obtain rfl := Option.some.inj hfinish
      exact hdone
    · rename_i token htoken
      obtain rfl := Option.some.inj hfinish
      obtain ⟨rfl, hlength⟩ := sealToken_eq_some htoken
      obtain ⟨hdisk, hmemory⟩ := hdone.covers_timely
        (m := ⟨key, envelope ttl now binding position, _⟩) hsigner hkey (htimely key hcall)
      refine hdone.issue ?_ hdisk ?_ ⟨rfl, rfl, hlength⟩
      · exact fun hnone => absurd (hsigner.symm.trans hnone) (by simp)
      · intro signer' hsigner'
        obtain rfl := Option.some.inj (hsigner.symm.trans hsigner')
        exact hmemory
  · cases hfinish

theorem beginOpen {id : ℕ} {token : Token} {binding : Binding} (h : s.Sound codec mac)
    (htimely : Timely ttl s (.beginOpen id token binding))
    (hforge : Unforged codec mac s (.beginOpen id token binding))
    (hbegin : s.beginOpen id token binding = some t) : t.Sound codec mac := by
  unfold System.beginOpen at hbegin
  split_ifs at hbegin with hbusy
  obtain ⟨signer, hsigner, rfl⟩ := Option.map_eq_some_iff.mp hbegin
  apply h.setCall
  rintro c hc
  obtain rfl := Option.some.inj hc
  obtain ⟨hcovers, ⟨hcurrent, hprevious⟩, -⟩ := h.memory signer hsigner
  refine ⟨by simp [hsigner], hcovers, fun m hm => hm, htimely, ?_⟩
  intro raw sig hparse key hkey hsig
  refine hforge raw sig key hparse ?_ hsig
  rcases hkey with rfl | hkey
  · exact hcurrent
  · exact hprevious key hkey

theorem finishOpen {id : ℕ} {now later : ℤ} (h : s.Sound codec mac)
    (hfinish : s.finishOpen id now later = some t) : t.Sound codec mac := by
  unfold System.finishOpen at hfinish
  split_ifs at hfinish with hback
  split at hfinish
  · obtain rfl := Option.some.inj hfinish
    exact (h.endCall id).tick (by
      change s.clock ≤ later
      omega)
  · cases hfinish

/-! ### Rotations -/

/-- The rotation changes, in step with the key file and the keys in memory. -/
theorem setRotation (h : s.Sound codec mac) {rotation : Option Rotation} {nextKey : Key}
    (hnext : s.nextKey ≤ nextKey) (hrunning : s.memory = none → rotation = none)
    (hrotates : ∀ signer, s.memory = some signer →
      ({ s with rotation := rotation, nextKey := nextKey } : System π).Rotates signer) :
    ({ s with rotation := rotation, nextKey := nextKey } : System π).Sound codec mac where
  absent := h.absent
  stopped hnone := ⟨hrunning hnone, (h.stopped hnone).2⟩
  disk ring hring := by
    obtain ⟨hcovers, hkey, hprevious⟩ := h.disk ring hring
    exact ⟨hcovers, hkey.trans_le hnext, fun key h => (hprevious key h).trans_le hnext⟩
  memory signer hsigner := by
    obtain ⟨hcovers, ⟨hkey, hprevious⟩, -⟩ := h.memory signer hsigner
    exact ⟨hcovers, ⟨hkey.trans_le hnext, fun key h => (hprevious key h).trans_le hnext⟩,
      hrotates signer hsigner⟩
  replaced := h.replaced
  calls id call hcall := (h.calls id call hcall).mono rfl (fun _ hk => hk) (fun _ hk => hk) le_rfl
  issued := h.issued

theorem beginRotate {onlyIfDue : Bool} {now : ℤ} (h : s.Sound codec mac)
    (hbegin : s.beginRotate onlyIfDue now = some t) : t.Sound codec mac := by
  unfold System.beginRotate at hbegin
  split_ifs at hbegin with hbusy
  simp only [not_or, Bool.not_eq_true, Option.isSome_eq_false_iff, Option.isNone_iff_eq_none,
    not_lt] at hbusy
  obtain ⟨hrotation, hle⟩ := hbusy
  obtain ⟨signer, hsigner, rfl⟩ := Option.map_eq_some_iff.mp hbegin
  have hdisk : s.disk = some signer := by
    have hrotates := (h.memory signer hsigner).2.2
    unfold Rotates at hrotates
    rw [hrotation] at hrotates
    exact hrotates
  refine (h.tick hle).setRotation le_rfl ?_ ?_
  · exact fun hnone => absurd (hsigner.symm.trans hnone) (by simp)
  · intro signer' hsigner'
    obtain rfl := Option.some.inj (hsigner.symm.trans hsigner')
    refine ⟨hdisk, rfl, fun hlive => ?_⟩
    unfold Signer.previousLive at hlive
    unfold Signer.Settled
    rw [Bool.and_eq_false_iff] at hlive
    rcases hlive with hnone | hlate
    · exact Or.inl (by simpa using hnone)
    · exact Or.inr (not_lt.mp (of_decide_eq_false hlate))

theorem stampRotate {now later : ℤ} (h : s.Sound codec mac)
    (hstamp : s.stampRotate ttl rotateEvery now later = some t) : t.Sound codec mac := by
  unfold System.stampRotate at hstamp
  split_ifs at hstamp with hback
  have hle : s.clock ≤ later := by omega
  split at hstamp
  · rename_i onlyIfDue current createdAt previousLive hrotation
    have hrotates : ∀ signer, s.memory = some signer → s.disk = some signer ∧
        current = signer.key ∧ (previousLive = false → signer.Settled s.clock) := by
      intro signer hsigner
      have hrotates := (h.memory signer hsigner).2.2
      unfold Rotates at hrotates
      rw [hrotation] at hrotates
      exact hrotates
    have hticked := h.tick hle
    split_ifs at hstamp with hends
    · obtain rfl := Option.some.inj hstamp
      refine hticked.setRotation le_rfl (fun _ => rfl) fun signer hsigner => ?_
      exact (hrotates signer hsigner).1
    · obtain rfl := Option.some.inj hstamp
      simp only [Bool.or_eq_true, not_or, Bool.not_eq_true] at hends
      refine hticked.setRotation (Nat.le_succ _) ?_ fun signer hsigner => ?_
      · intro hnone
        exact absurd ((h.stopped hnone).1.symm.trans hrotation) (by simp)
      · obtain ⟨hdisk, rfl, hsettled⟩ := hrotates signer hsigner
        exact ⟨hdisk, rfl, (hsettled hends.2).later hle, Nat.lt_succ_self _⟩
  · cases hstamp

/-- The key file that replaces a key covers the tokens that it leaves to that key. -/
theorem writeRotate {works : Bool} (h : s.Sound codec mac)
    (htimely : Timely ttl s (.writeRotate works)) (hwrite : s.writeRotate works = some t) :
    t.Sound codec mac := by
  unfold System.writeRotate at hwrite
  split at hwrite
  · rename_i ring hrotation
    have hrunning : s.memory ≠ none := fun hnone =>
      absurd ((h.stopped hnone).1.symm.trans hrotation) (by simp)
    obtain ⟨signer, hsigner⟩ := Option.ne_none_iff_exists'.mp hrunning
    obtain ⟨hcovers, hknown, hrotates⟩ := h.memory signer hsigner
    unfold Rotates at hrotates
    rw [hrotation] at hrotates
    obtain ⟨hdisk, hprevious, hsettled, hkey⟩ := hrotates
    split_ifs at hwrite with hworks
    · obtain rfl := Option.some.inj hwrite
      have hlisted : ring.previous.toList.map (fun key => (key, ring.previousUntil)) =
          [(signer.key, ring.previousUntil)] := by
        rw [hprevious]
        rfl
      rw [hlisted]
      have hring : Covers ring s.issued s.clock ∧ ring.Known s.nextKey := by
        refine ⟨fun m hm => ?_, hkey, fun key hk => ?_⟩
        · rcases hcovers m hm with hcurrent | ⟨hbefore, hends⟩ | hlate
          · have hmine : ring.previous = some m.key := by rw [hprevious, hcurrent]
            exact Or.inr (Or.inl ⟨hmine, htimely hworks ring hrotation m hm hmine⟩)
          · -- the tokens of the key before have expired when a rotation goes on
            rcases hsettled with hnone | hpast
            · exact absurd (hnone.symm.trans hbefore) (by simp)
            · exact Or.inr (Or.inr (hends.trans hpast))
          · exact Or.inr (Or.inr hlate)
        · rw [hprevious] at hk
          obtain rfl := Option.some.inj hk
          exact hknown.1
      constructor
      · exact fun hnone => nomatch hnone
      · exact fun hnone => absurd hnone hrunning
      · intro ring' hring'
        obtain rfl := Option.some.inj hring'
        exact hring
      · intro signer' hsigner'
        obtain rfl := Option.some.inj (hsigner.symm.trans hsigner')
        refine ⟨hcovers, hknown, ?_⟩
        exact ⟨rfl, hprevious, List.mem_append_right _ (List.mem_singleton_self _)⟩
      · intro key limit hin
        rcases List.mem_append.mp hin with hin | hin
        · rcases h.replaced key limit hin with ⟨ring', hring', hbefore, rfl⟩ | hlate
          · obtain rfl := Option.some.inj (hdisk.symm.trans hring')
            rcases hsettled with hnone | hpast
            · exact absurd (hnone.symm.trans hbefore) (by simp)
            · exact Or.inr hpast
          · exact Or.inr hlate
        · obtain ⟨rfl, rfl⟩ := Prod.mk.inj (List.mem_singleton.mp hin)
          exact Or.inl ⟨ring, rfl, hprevious, rfl⟩
      · intro id call hcall
        exact (h.calls id call hcall).mono rfl (List.subset_append_left _ _) (fun _ hk => hk) le_rfl
      · exact h.issued
    · obtain rfl := Option.some.inj hwrite
      refine h.setRotation le_rfl (fun _ => rfl) fun signer' hsigner' => ?_
      obtain rfl := Option.some.inj (hsigner.symm.trans hsigner')
      exact hdisk
  · cases hwrite

theorem swapRotate (h : s.Sound codec mac) (hswap : s.swapRotate = some t) : t.Sound codec mac := by
  unfold System.swapRotate at hswap
  split at hswap
  · rename_i ring hrotation
    obtain rfl := Option.some.inj hswap
    have hrunning : s.memory ≠ none := fun hnone =>
      absurd ((h.stopped hnone).1.symm.trans hrotation) (by simp)
    obtain ⟨signer, hsigner⟩ := Option.ne_none_iff_exists'.mp hrunning
    have hrotates := (h.memory signer hsigner).2.2
    unfold Rotates at hrotates
    rw [hrotation] at hrotates
    obtain ⟨hdisk, hprevious, hin⟩ := hrotates
    constructor
    · exact fun hnone => absurd (hdisk.symm.trans hnone) (by simp)
    · exact fun hnone => nomatch hnone
    · exact h.disk
    · intro ring' hring'
      obtain rfl := Option.some.inj hring'
      obtain ⟨hcovers, hknown⟩ := h.disk ring hdisk
      exact ⟨hcovers, hknown, hdisk⟩
    · exact h.replaced
    · intro id call hcall
      have hsound := h.calls id call hcall
      cases call with
      | sealing key =>
        -- the key that a sealing has read is the one that was replaced, or an older one
        obtain ⟨signer', hsigner', hkey⟩ := hsound
        obtain rfl := Option.some.inj (hsigner.symm.trans hsigner')
        refine ⟨ring, rfl, Or.inr ?_⟩
        rcases hkey with rfl | hkey
        · exact ⟨_, hin⟩
        · exact hkey
      | opening => exact hsound
    · exact h.issued
  · cases hswap

theorem step {e : Event π} (h : s.Sound codec mac) (htimely : Timely ttl s e)
    (hforge : Unforged codec mac s e)
    (hstep : CursorSigning.step codec mac ttl rotateEvery s e = some t) : t.Sound codec mac := by
  cases e with
  | start now => exact h.start hstep
  | crash =>
    obtain rfl := Option.some.inj hstep
    exact h.crash
  | beginSeal id => exact h.beginSeal hstep
  | finishSeal id now binding position => exact h.finishSeal htimely hstep
  | beginOpen id token binding => exact h.beginOpen htimely hforge hstep
  | finishOpen id now later => exact h.finishOpen hstep
  | beginRotate onlyIfDue now => exact h.beginRotate hstep
  | stampRotate now later => exact h.stampRotate hstep
  | writeRotate works => exact h.writeRotate htimely hstep
  | swapRotate => exact h.swapRotate hstep

/-- **What an opening is answered.** The keys that it read cover the tokens that were returned before,
and a token whose tag is good under one of them is one of those. -/
theorem lawful {e : Event π} (h : s.Sound codec mac) (hcodec : codec.Lossless) :
    Lawful codec mac s e := by
  cases e with
  | finishOpen id now later =>
    intro hclock hle signer token binding known hcall
    obtain ⟨hcovers, hknown, ⟨raw, sig, rfl⟩, hforge⟩ := h.calls id _ hcall
    have hanswer : s.answer codec mac id now later =
        some (openToken codec mac signer now later (text raw sig) binding) := by
      unfold System.answer
      rw [hcall]
    rw [hanswer]
    constructor
    · rintro m hm htoken rfl hlive
      obtain ⟨hsigned, hversion, hlength⟩ := h.issued m (hknown hm)
      have hends := lt_ends hlive
      rw [← htoken, hsigned]
      refine congrArg some (openToken_signed hcodec hversion (hsigned ▸ hlength) ?_ hlive)
      rcases hcovers m hm with hcurrent | ⟨hprevious, hlimit⟩ | hlate
      · exact Or.inl hcurrent
      · exact Or.inr ⟨hprevious, by omega⟩
      · omega
    · intro position hopened
      obtain ⟨raw', sig', e, hparse, haccepts, hdecode, rfl, hlive, rfl⟩ :=
        openToken_ok (Option.some.inj hopened)
      have hsame := hparse.symm.trans (parse_text (length_of_parse hparse))
      obtain ⟨rfl, rfl⟩ := Prod.mk.inj (Option.some.inj hsame)
      have hkey : ∃ key, (key = signer.key ∨ signer.previous = some key) ∧ sig' = mac key raw' := by
        rcases accepts_iff.mp haccepts with hcurrent | ⟨key, hprevious, -, hsig⟩
        · exact ⟨signer.key, Or.inl rfl, hcurrent⟩
        · exact ⟨key, Or.inr hprevious, hsig⟩
      obtain ⟨key, hmine, hsig⟩ := hkey
      obtain ⟨m, hm, rfl, hraw⟩ := hforge raw' sig' hparse key hmine hsig
      have he : m.envelope = e := by
        rw [← hraw, hcodec] at hdecode
        exact Option.some.inj hdecode
      refine ⟨m, hm, ?_, congrArg _ he, he ▸ hlive, congrArg _ he⟩
      rw [(h.issued m (hknown hm)).1, hsig, ← hraw]
      rfl
  | start | crash | beginSeal | finishSeal | beginOpen | beginRotate | stampRotate | writeRotate
  | swapRotate => trivial

end System.Sound

/-- A page of a viewer, sealed at 3 s for a minute. -/
def page : Envelope ℕ := ⟨1, 63, ⟨"account:profile", "", "", "catalog:4", "9"⟩, 42⟩

/-- The page as it is written. -/
def pageJSON : List UInt8 :=
  ("\x7b\"v\":1,\"expires\":63,\"binding\":\x7b\"principal\":\"account:profile\"," ++
    "\"filter\":\"\",\"sort\":\"\",\"snapshot\":\"catalog:4\",\"authority\":\"9\"\x7d," ++
    "\"position\":42\x7d").toList.map
      fun c => UInt8.ofNat c.toNat

def fields (e : Envelope ℕ) : ℤ × ℤ × List (List ℕ) × ℕ :=
  (e.version, e.expires, [e.binding.principal, e.binding.filter, e.binding.sort, e.binding.snapshot,
    e.binding.authority].map fun s => s.toList.map Char.toNat, e.position)

/-- A tag of 32 bytes. -/
def pageMac : Mac := fun key raw =>
  UInt8.ofNat key :: List.replicate 31 (UInt8.ofNat raw.length)

/-- The token of the page under the first key. -/
def pageToken : Token := text pageJSON (pageMac 0 pageJSON)

/-- Seconds in nanoseconds. -/
def seconds (n : ℤ) : ℤ := n * 1000000000

/-- The page was returned. -/
def returned (s : System ℕ) : System ℕ :=
  { s.setCall 1 none with clock := seconds 3, issued := s.issued ++ [⟨0, page, pageToken⟩] }

/-- The first process. -/
def started : System ℕ :=
  { disk := some ⟨0, none, 0, seconds 1⟩, memory := some ⟨0, none, 0, seconds 1⟩, nextKey := 1,
    clock := seconds 1 }

/-- It begins to seal the page. -/
def sealing : System ℕ := started.setCall 1 (some (.sealing 0))

/-- The page is opened with some keys. -/
def opening (s : System ℕ) (signer : Signer) : System ℕ :=
  s.setCall 2 (some (.opening signer pageToken page.binding [⟨0, page, pageToken⟩]))

/-- The keys after the rotation: the first one stays good until 61 s. -/
def rotated : Signer := ⟨1, some 0, seconds 61, seconds 1⟩

end Portico.CursorSigning
