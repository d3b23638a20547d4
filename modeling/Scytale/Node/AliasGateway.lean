/-
  Scytale.Node.AliasGateway — binding account numbers over HTTP
  (apps/scytale-node/src/http_gateway.rs, `bind_alias`).

  Whoever holds the key of an address binds a number to it. The request is checked on the
  address its text is read as; what is stored, and what conflicts, is the text.
  - `bindAlias_outcome`: a request binds what it names, or changes nothing.
  - `one_alias_runs`: an address keeps to one number as long as no request that is good and for
    a free number spells a bound address anew; each such request gives it a second.
-/
import Scytale.Account.AliasStore
import Scytale.Blake3

namespace Scytale

open Lib

inductive StatusCode where
  | badRequest
  | unauthorized
  | conflict
  | internalServerError
  deriving DecidableEq

structure AliasBindRequest where
  passbookId : Bytes
  candidate : Bytes
  signature : Bytes
  publicKey : Bytes
  deriving DecidableEq

structure AliasBindResponse where
  status : String
  accountNumber : Bytes
  passbookId : Bytes
  deriving DecidableEq

inductive AliasRefusal where
  | response (status : StatusCode) (error : String)
  /-- The handler panicked; there is no response. -/
  | panicked
  deriving DecidableEq

/-- What is used of Ed25519: the keys that are points, and `verify` of a message. -/
structure VerifyingKeys where
  isKey : Bytes → Bool
  verify : Bytes → Bytes → Bytes → Bool

def StoreError.toString : StoreError → String
  | io text => "sidecar I/O error: " ++ text
  | serialization text => "sidecar serialization error: " ++ text
  | accountConflict => "account number is already bound"
  | passbookConflict => "passbook ID is already bound"
  | emptyPassbookId => "passbook ID must not be empty"
  | inconsistentIndexes => "sidecar indexes are inconsistent"

def StoreError.status : StoreError → StatusCode
  | accountConflict => .conflict
  | passbookConflict => .conflict
  | io _ => .internalServerError
  | serialization _ => .internalServerError
  | inconsistentIndexes => .internalServerError
  | emptyPassbookId => .badRequest

section
variable (H : Hasher) (decode : Core.Bech32Decode) (keys : VerifyingKeys)

/-- The checks of a request before the store is asked. -/
def checkBindRequest (payload : AliasBindRequest) : Except AliasRefusal AccountNumber :=
  match AccountNumber.new payload.candidate with
  | none => .error (.response .badRequest "Invalid account number format")
  | some account =>
    if (Core.trim payload.passbookId).isEmpty then .error (.response .badRequest "Passbook ID must not be empty")
    else match fromHex payload.publicKey with
      | .error _ => .error (.response .badRequest "Invalid public key")
      | .ok publicKey =>
        if publicKey.length ≠ 32 then .error (.response .badRequest "Public key must be 32 bytes")
        else match Core.Address.parse decode payload.passbookId with
          | .error .panicked => .error .panicked
          | .error _ => .error (.response .badRequest "Passbook ID must be an address")
          | .ok passbookAddress =>
            if (H publicKey).bytes ≠ passbookAddress.hash then
              .error (.response .unauthorized "Public key does not match passbook address")
            else if payload.signature.length ≠ 64 then .error (.response .badRequest "Signature must be 64 bytes")
            else if !keys.isKey publicKey then .error (.response .unauthorized "Invalid public key")
            else if !keys.verify publicKey (bindMessage publicKey payload.passbookId account) payload.signature then
              .error (.response .unauthorized "Invalid account bind signature")
            else .ok account

def bindAlias (fault : Option StoreError) (store : AliasStore) (payload : AliasBindRequest) :
    AliasStore × Except AliasRefusal AliasBindResponse :=
  match checkBindRequest H decode keys payload with
  | .error e => (store, .error e)
  | .ok account =>
    match store.byAccount[account]? with
    | some existing =>
      if existing ≠ payload.passbookId then
        (store, .error (.response .conflict "Account number already registered to another passbook (gugur)"))
      else match store.bind fault account payload.passbookId with
        | (store, .error e) => (store, .error (.response e.status e.toString))
        | (store, .ok ()) => (store, .ok ⟨"Accepted", account.text, payload.passbookId⟩)
    | none =>
      match store.bind fault account payload.passbookId with
      | (store, .error e) => (store, .error (.response e.status e.toString))
      | (store, .ok ()) => (store, .ok ⟨"Accepted", account.text, payload.passbookId⟩)

/-! ## Runs -/

/-- The stores of all sequences of allowed requests. -/
inductive AliasReach (allowed : AliasStore → AliasBindRequest → Prop) : AliasStore → Prop where
  | empty : AliasReach allowed AliasStore.empty
  | step {store : AliasStore} (h : AliasReach allowed store) (fault : Option StoreError) (payload : AliasBindRequest)
      (hop : allowed store payload) : AliasReach allowed (bindAlias H decode keys fault store payload).1

/-- The number and the address are bound to each other, under any text of the address. -/
def AliasStore.Binds (store : AliasStore) (account : AccountNumber) (address : Bytes) : Prop :=
  ∃ text a, (store.byAccount[account]? = some text ∨ store.byPassbook[text]? = some account) ∧
    Core.Address.parse decode text = .ok a ∧ a.hash = address

structure AliasStore.OneAlias (store : AliasStore) : Prop where
  account : ∀ a b x, store.Binds decode a x → store.Binds decode b x → a = b
  address : ∀ a x y, store.Binds decode a x → store.Binds decode a y → x = y

/-- A request that is good, for a free number, names a bound address in a new spelling. -/
def Respells (store : AliasStore) (payload : AliasBindRequest) : Prop :=
  ∃ account address account', checkBindRequest H decode keys payload = .ok account ∧
    Core.Address.parse decode payload.passbookId = .ok address ∧ store.byAccount[account]? = none ∧
    store.byPassbook[payload.passbookId]? = none ∧ store.Binds decode account' address.hash

end

variable {H : Hasher} {decode : Core.Bech32Decode} {keys : VerifyingKeys}

/-- A request that passes the checks names an address, in a text that is not empty. -/
theorem checkBindRequest_ok {payload : AliasBindRequest} {account : AccountNumber}
    (h : checkBindRequest H decode keys payload = .ok account) : (Core.trim payload.passbookId).isEmpty = false ∧
      ∃ address, Core.Address.parse decode payload.passbookId = .ok address := by
  unfold checkBindRequest at h
  split at h
  · cases h
  · split at h
    · cases h
    · rename_i htext
      split at h
      · cases h
      · split at h
        · cases h
        · split at h
          · cases h
          · cases h
          · rename_i address haddress
            exact ⟨by simpa using htext, address, haddress⟩

/-- The store takes the binding of a request that passes the checks, or stays as it is. -/
theorem bindAlias_outcome (fault : Option StoreError) (store : AliasStore) (payload : AliasBindRequest) :
    (bindAlias H decode keys fault store payload).1 = store ∨
      ∃ account, checkBindRequest H decode keys payload = .ok account ∧
        AliasStore.Bound store account payload.passbookId (bindAlias H decode keys fault store payload).1 := by
  unfold bindAlias
  split
  · exact .inl rfl
  · rename_i account hcheck
    have hbind := AliasStore.bind_outcome fault store account payload.passbookId
    generalize store.bind fault account payload.passbookId = r at hbind
    obtain ⟨store', answer⟩ := r
    have hresult : store' = store ∨ ∃ a, checkBindRequest H decode keys payload = .ok a ∧
      AliasStore.Bound store a payload.passbookId store' := hbind.imp_right fun h => ⟨account, hcheck, h⟩
    split
    · split
      · exact .inl rfl
      · cases answer <;> exact hresult
    · cases answer <;> exact hresult

theorem AliasReach.consistent {allowed : AliasStore → AliasBindRequest → Prop} {store : AliasStore}
    (h : AliasReach H decode keys allowed store) : store.Consistent := by
  induction h with
  | empty => exact AliasStore.consistent_empty
  | @step store _ fault payload _ ih =>
    rcases bindAlias_outcome fault store payload with hsame | ⟨account, -, hbound⟩
    · rw [hsame]
      exact ih
    · exact hbound.consistent ih

/-- What was bound stays so, and besides it there is what was asked for. -/
theorem AliasStore.Bound.binds_iff {store store' : AliasStore} {account : AccountNumber} {passbookId : Bytes}
    (h : Bound store account passbookId store') {address : Core.Address}
    (haddress : Core.Address.parse decode passbookId = .ok address) {a : AccountNumber} {x : Bytes} :
    store'.Binds decode a x ↔ store.Binds decode a x ∨ a = account ∧ x = address.hash := by
  have hget : ∀ text, (store'.byAccount[a]? = some text ∨ store'.byPassbook[text]? = some a) ↔
      (store.byAccount[a]? = some text ∨ store.byPassbook[text]? = some a) ∨ a = account ∧ text = passbookId := by
    intro text
    rw [h.result, Table.get_insert, Table.get_insert]
    by_cases ha : account = a
    · subst ha
      by_cases hp : passbookId = text
      · subst hp
        simp
      · have := h.unnumbered
        simp [hp, Ne.symm hp, this]
    · have hne : a ≠ account := Ne.symm ha
      by_cases hp : passbookId = text
      · subst hp
        simp [ha, hne, h.unnamed]
      · simp [ha, hne, hp]
  constructor
  · rintro ⟨text, y, hbound, hparse, rfl⟩
    rcases (hget text).mp hbound with hbound | ⟨rfl, rfl⟩
    · exact .inl ⟨text, y, hbound, hparse, rfl⟩
    · rw [haddress] at hparse
      cases hparse
      exact .inr ⟨rfl, rfl⟩
  · rintro (⟨text, y, hbound, hparse, rfl⟩ | ⟨rfl, rfl⟩)
    · exact ⟨text, y, (hget text).mpr (.inl hbound), hparse, rfl⟩
    · exact ⟨passbookId, address, (hget passbookId).mpr (.inr ⟨rfl, rfl⟩), haddress, rfl⟩

/-- A number without a text is bound to nothing. -/
theorem AliasStore.Consistent.unbound {store : AliasStore} (hc : store.Consistent) {account : AccountNumber}
    (h : store.byAccount[account]? = none) (x : Bytes) : ¬ store.Binds decode account x := by
  rintro ⟨text, y, hbound, -, -⟩
  rw [← hc, or_self, h] at hbound
  cases hbound

theorem AliasReach.oneAlias {store : AliasStore}
    (h : AliasReach H decode keys (fun store payload => ¬ Respells H decode keys store payload) store) :
    store.OneAlias decode := by
  induction h with
  | empty =>
    have hnone : ∀ a x, ¬ AliasStore.empty.Binds decode a x := fun a x =>
      AliasStore.consistent_empty.unbound (by simp [AliasStore.empty]) x
    exact ⟨fun a _ x ha _ => absurd ha (hnone a x), fun a x _ ha _ => absurd ha (hnone a x)⟩
  | @step store hreach fault payload hop ih =>
    have hc := hreach.consistent
    rcases bindAlias_outcome fault store payload with hsame | ⟨account, hcheck, hbound⟩
    · rw [hsame]
      exact ih
    · obtain ⟨-, address, haddress⟩ := checkBindRequest_ok hcheck
      have hnew : ∀ a, ¬ store.Binds decode a address.hash := fun a ha =>
        hop ⟨account, address, a, hcheck, haddress, hbound.unnumbered, hbound.unnamed, ha⟩
      have hfree : ∀ x, ¬ store.Binds decode account x := hc.unbound hbound.unnumbered
      constructor
      · intro a b x ha hb
        rcases (hbound.binds_iff haddress).mp ha with ha | ⟨ha, hx⟩ <;>
          rcases (hbound.binds_iff haddress).mp hb with hb | ⟨hb, hx'⟩
        · exact ih.account a b x ha hb
        · exact absurd (hx' ▸ ha) (hnew a)
        · exact absurd (hx ▸ hb) (hnew b)
        · rw [ha, hb]
      · intro a x y hx hy
        rcases (hbound.binds_iff haddress).mp hx with hx | ⟨ha, hx⟩ <;>
          rcases (hbound.binds_iff haddress).mp hy with hy | ⟨ha', hy⟩
        · exact ih.address a x y hx hy
        · exact absurd (ha' ▸ hx) (hfree x)
        · exact absurd (ha ▸ hy) (hfree y)
        · rw [hx, hy]

/-- A request that spells a bound address anew is accepted, unless writing fails. -/
theorem Respells.breaks {store : AliasStore} {payload : AliasBindRequest} (h : Respells H decode keys store payload)
    (hc : store.Consistent) : ¬ (bindAlias H decode keys none store payload).1.OneAlias decode := by
  obtain ⟨account, address, account', hcheck, haddress, hnone, hunnamed, hbinds⟩ := h
  obtain ⟨htext, -⟩ := checkBindRequest_ok hcheck
  have hbound : AliasStore.Bound store account payload.passbookId (bindAlias H decode keys none store payload).1 := by
    have hbind := AliasStore.bind_of_free htext hnone hunnamed
    generalize hr : store.bind none account payload.passbookId = r at hbind
    obtain ⟨store', answer⟩ := r
    simp only [bindAlias, hcheck, hnone, hr]
    cases answer <;> exact hbind
  intro hone
  have hsame : account' = account := hone.account _ _ _ ((hbound.binds_iff haddress).mpr (.inl hbinds))
    ((hbound.binds_iff haddress).mpr (.inr ⟨rfl, rfl⟩))
  exact hc.unbound hnone _ (hsame ▸ hbinds)

/-- In every sequence of requests of which none spells a bound address anew, every address keeps
    to one number and every number to one address; and the first request that does gives an
    address a second number. -/
theorem one_alias_runs {store : AliasStore}
    (h : AliasReach H decode keys (fun store payload => ¬ Respells H decode keys store payload) store) :
    store.OneAlias decode ∧ ∀ payload, Respells H decode keys store payload →
      ¬ (bindAlias H decode keys none store payload).1.OneAlias decode :=
  ⟨h.oneAlias, fun _ hrespells => hrespells.breaks h.consistent⟩

/-! ### One key, two spellings -/

def aliasKey : Bytes := beBytes 32 0x8a88e3dd7409f195fd52db2d3cba5d72ca6709bf1d94121bf3748801b40f6f5c

/-- The key's address in hex digits, and with `0x` before them. -/
def plainId : Bytes := toHex (Blake3.digest aliasKey).bytes

def prefixedId : Bytes := 0x30 :: 0x78 :: plainId

/-- `SCY-00000` and a digit. -/
def sampleNumber (digit : UInt8) : Bytes := accountPrefix ++ [0x30, 0x30, 0x30, 0x30, 0x30, digit]

def plainSignature : Bytes :=
  beBytes 64 0x380829262376b6a80ff21d84db5f093ba876fb1e433897807d27bf2a65b6cf66014cf163ea1c4ef08add0a08ea0f5ed26aad2ad75fab740dd264e45062e2aa0e

def prefixedSignature : Bytes :=
  beBytes 64 0x98013abf0902602197b55683bc35a58a3035ee8024e697fc6ece7d24238d97e84d102c75a0b891c69e1012bbe8bcc736b0e8c6232d741300a9784d08ad31ec08

def plainRequest : AliasBindRequest := ⟨plainId, sampleNumber 0x31, plainSignature, toHex aliasKey⟩

def prefixedRequest : AliasBindRequest := ⟨prefixedId, sampleNumber 0x32, prefixedSignature, toHex aliasKey⟩

/-- Ed25519 on what the two requests ask. -/
def aliasKeys : VerifyingKeys where
  isKey := fun key => key == aliasKey
  verify := fun key message signature => key == aliasKey &&
    ((message == bindTag ++ aliasKey ++ u32le 64 ++ plainId ++ sampleNumber 0x31 && signature == plainSignature) ||
      (message == bindTag ++ aliasKey ++ u32le 66 ++ prefixedId ++ sampleNumber 0x32 && signature == prefixedSignature))

/-- Neither text is asked of the decoder. -/
def noBech32 : Core.Bech32Decode := fun _ => .error []

set_option maxRecDepth 10000 in
/-- After the first request. -/
theorem one_alias_plain : let store := (bindAlias Blake3.digest noBech32 aliasKeys none AliasStore.empty plainRequest).1
    (∃ account, store.byPassbook[plainId]? = some account) ∧ store.OneAlias noBech32 ∧
      ∀ payload, Respells Blake3.digest noBech32 aliasKeys store payload →
        ¬ (bindAlias Blake3.digest noBech32 aliasKeys none store payload).1.OneAlias noBech32 := by
  refine ⟨Option.isSome_iff_exists.mp (by decide +kernel), one_alias_runs (.step .empty none plainRequest ?_)⟩
  rintro ⟨_, _, account, -, -, -, -, hbinds⟩
  exact AliasStore.consistent_empty.unbound (by simp [AliasStore.empty]) _ hbinds

set_option maxRecDepth 10000 in
/-- After both, the address has two numbers. -/
theorem one_address_two_aliases : ¬ ∀ store, AliasReach Blake3.digest noBech32 aliasKeys (fun _ _ => True) store →
    store.OneAlias noBech32 := by
  intro hall
  have hone := hall _ (.step (.step .empty none plainRequest trivial) none prefixedRequest trivial)
  have hplain : Core.Address.parse noBech32 plainId = .ok (Core.Address.new (Blake3.digest aliasKey).bytes) := by
    decide +kernel
  have hprefixed : Core.Address.parse noBech32 prefixedId = .ok (Core.Address.new (Blake3.digest aliasKey).bytes) := by
    decide +kernel
  have hsame : (⟨sampleNumber 0x31, by decide⟩ : AccountNumber) = ⟨sampleNumber 0x32, by decide⟩ :=
    hone.account _ _ _ ⟨plainId, _, .inl (by decide +kernel), hplain, rfl⟩
      ⟨prefixedId, _, .inl (by decide +kernel), hprefixed, rfl⟩
  exact absurd hsame (by decide)

end Scytale
