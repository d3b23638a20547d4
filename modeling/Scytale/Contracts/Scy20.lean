/-
  Scytale.Contracts.Scy20 — the fungible token contract (contracts/scy20/src).

  A token's supply stands in its registry datum, which is spent and recreated with every
  operation; balances stand in token datums. The totals are taken over every datum that
  decodes as a token datum. `bincode` decodes a prefix, and the first three fields of a
  registry are those of a token datum, so a registry counts as a balance of its supply.
  - `canonicalTokenTotal_ok`: what the totals are: the balances and the supplies.
  - `scy20_balances_kept`: whatever is accepted, a mint and a burn too, keeps the sum of the
    balances.
  - `scy20_supply_iff`: so the supply follows the balances exactly when it stays.
  - `mint_rejected`: so no mint that raises the balances with the supply is accepted.
-/
import Scytale.Core.VmAdapter
import Scytale.Core.Codec

namespace Scytale

open Lib

/-- `u128`. -/
abbrev U128 := Fin (2 ^ 128)

namespace U128

def checkedAdd (a b : U128) : Option U128 := if h : a.val + b.val < 2 ^ 128 then some ⟨a.val + b.val, h⟩ else none

def checkedSub (a b : U128) : Option U128 :=
  if b.val ≤ a.val then some ⟨a.val - b.val, Nat.lt_of_le_of_lt (Nat.sub_le _ _) a.isLt⟩ else none

theorem checkedAdd_eq_some {a b c : U128} (h : checkedAdd a b = some c) : c.val = a.val + b.val := by
  unfold checkedAdd at h
  split at h
  · cases h
    rfl
  · cases h

theorem checkedSub_eq_some {a b c : U128} (h : checkedSub a b = some c) : c.val + b.val = a.val := by
  unfold checkedSub at h
  split at h
  · rename_i hle
    cases h
    exact Nat.sub_add_cancel hle
  · cases h

end U128

/-- `[u8; 32]`. -/
abbrev TokenId := Hash256

/-- `[u8; 32]`, a public key. -/
abbrev Address := Hash256

/-- `[u8; 64]`. -/
abbrev Signature := { bytes : Bytes // bytes.length = 64 }

structure Scy20Datum where
  tokenId : TokenId
  owner : Address
  amount : U128
  deriving DecidableEq

structure TokenRegistryDatum where
  tokenId : TokenId
  authority : Address
  currentSupply : U128
  maxSupply : Option U128
  nonce : UInt64
  deriving DecidableEq

inductive Scy20Redeemer where
  | transfer (signature : Signature) (nonce : UInt64)
  | mint (signature : Signature) (nonce : UInt64)
  | burn (signature : Signature) (nonce : UInt64)
  deriving DecidableEq

inductive Scy20Error where
  | supplyMismatch (input output : U128)
  | missingSignature (address : Address)
  | maxSupplyExceeded
  | zeroAmount
  | invalidRegistryState
  | nonceMismatch
  deriving DecidableEq

/-! ## bincode -/

/-- `bincode` on the two kinds of datum, as it is documented: the fields one after the
    other and nothing else; `deserialize` takes a value off the front and ignores the rest. -/
structure Bincode where
  serializeDatum : Scy20Datum → Bytes
  serializeRegistry : TokenRegistryDatum → Bytes
  deserializeDatum : Bytes → Option Scy20Datum
  deserializeRegistry : Bytes → Option TokenRegistryDatum
  datum_leads : ∀ d rest, deserializeDatum (serializeDatum d ++ rest) = some d
  registry_leads : ∀ r rest, deserializeRegistry (serializeRegistry r ++ rest) = some r
  /-- The fields of a registry start with three of the types of a token datum's. -/
  registry_fields : ∀ r, ∃ rest, serializeRegistry r = serializeDatum ⟨r.tokenId, r.authority, r.currentSupply⟩ ++ rest
  /-- A token datum ends where a registry's fourth field would start. -/
  datum_short : ∀ d, deserializeRegistry (serializeDatum d) = none

/-! ## The contract -/

section
variable (B : Bincode) (verifyEd25519 : Address → Signature → Bytes → Bool)

/-- The first datum that decodes as a registry of the token. -/
def findRegistry (datums : List Bytes) (tokenId : TokenId) : Option TokenRegistryDatum :=
  (datums.filterMap B.deserializeRegistry).find? fun state => state.tokenId == tokenId

/-- The loop over the data, with the total so far. -/
def canonicalTokenTotal (tokenId : TokenId) : U128 → List Bytes → Except Scy20Error U128
  | total, [] => .ok total
  | total, bytes :: datums =>
    match B.deserializeDatum bytes with
    | none => canonicalTokenTotal tokenId total datums
    | some state =>
      if state.tokenId = tokenId then
        if state.amount = 0 then .error .zeroAmount
        else match U128.checkedAdd total state.amount with
          | none => .error (.supplyMismatch total state.amount)
          | some total => canonicalTokenTotal tokenId total datums
      else canonicalTokenTotal tokenId total datums

/-- The signature of whoever the operation needs; the nonce it names. -/
def checkSignature (datum : Scy20Datum) (registry : TokenRegistryDatum) (txHash : Hash256) :
    Scy20Redeemer → Except Scy20Error UInt64
  | .transfer signature nonce =>
    if !verifyEd25519 datum.owner signature txHash.bytes then .error (.missingSignature datum.owner) else .ok nonce
  | .mint signature nonce =>
    if !verifyEd25519 registry.authority signature txHash.bytes then .error (.missingSignature registry.authority)
    else .ok nonce
  | .burn signature nonce =>
    if !verifyEd25519 datum.owner signature txHash.bytes then .error (.missingSignature datum.owner) else .ok nonce

/-- The supply after the operation, from the totals. -/
def expectedSupply (registry : TokenRegistryDatum) (inputTotal outputTotal : U128) : Scy20Redeemer → Except Scy20Error U128
  | .mint _ _ =>
    match U128.checkedSub outputTotal inputTotal with
    | none => .error (.supplyMismatch inputTotal outputTotal)
    | some delta =>
      match U128.checkedAdd registry.currentSupply delta with
      | none => .error .maxSupplyExceeded
      | some supply => .ok supply
  | .transfer _ _ =>
    if inputTotal = outputTotal then .ok registry.currentSupply else .error (.supplyMismatch inputTotal outputTotal)
  | .burn _ _ =>
    match U128.checkedSub inputTotal outputTotal with
    | none => .error (.supplyMismatch inputTotal outputTotal)
    | some delta =>
      match U128.checkedSub registry.currentSupply delta with
      | none => .error (.supplyMismatch registry.currentSupply delta)
      | some supply => .ok supply

/-- The next registry against the one spent and the supply it should name. -/
def checkNextRegistry (registry next : TokenRegistryDatum) (expected : U128) : Except Scy20Error Unit :=
  if next.currentSupply ≠ expected ∨ next.authority ≠ registry.authority ∨ next.maxSupply ≠ registry.maxSupply then
    .error .invalidRegistryState
  else if next.maxSupply.any (fun max => expected > max) then .error .maxSupplyExceeded
  else .ok ()

def validateScy20Execution (datum : Scy20Datum) (redeemer : Scy20Redeemer) (ctx : TxContext) : Except Scy20Error Unit :=
  match findRegistry B ctx.ledgerState datum.tokenId with
  | none => .error .invalidRegistryState
  | some registry =>
    match findRegistry B ctx.outputDatums datum.tokenId with
    | none => .error .invalidRegistryState
    | some next =>
      match checkSignature verifyEd25519 datum registry ctx.txHash redeemer with
      | .error e => .error e
      | .ok nonce =>
        match Scytale.checkedAdd registry.nonce 1 with
        | none => .error .nonceMismatch
        | some expectedNonce =>
          if nonce ≠ registry.nonce ∨ next.nonce ≠ expectedNonce then .error .nonceMismatch
          else match canonicalTokenTotal B datum.tokenId 0 ctx.inputDatums with
            | .error e => .error e
            | .ok inputTotal =>
              match canonicalTokenTotal B datum.tokenId 0 ctx.outputDatums with
              | .error e => .error e
              | .ok outputTotal =>
                match expectedSupply registry inputTotal outputTotal redeemer with
                | .error e => .error e
                | .ok expected => checkNextRegistry registry next expected

end

/-! ## What the data say -/

/-- A datum of the contract. -/
inductive TokenState where
  | token (d : Scy20Datum)
  | registry (r : TokenRegistryDatum)
  deriving DecidableEq

namespace TokenState

def bytes (B : Bincode) : TokenState → Bytes
  | token d => B.serializeDatum d
  | registry r => B.serializeRegistry r

def registry? : TokenState → Option TokenRegistryDatum
  | token _ => none
  | registry r => some r

/-- What it holds of a token. -/
def balance (tokenId : TokenId) : TokenState → Nat
  | token d => if d.tokenId = tokenId then d.amount.val else 0
  | registry _ => 0

/-- The supply it states of a token. -/
def supply (tokenId : TokenId) : TokenState → Nat
  | token _ => 0
  | registry r => if r.tokenId = tokenId then r.currentSupply.val else 0

end TokenState

/-- The registries of a token. -/
def registriesOf (tokenId : TokenId) (states : List TokenState) : List TokenRegistryDatum :=
  (states.filterMap TokenState.registry?).filter fun r => r.tokenId == tokenId

/-- The sum of the amounts of the token datums of a token. -/
def balances (tokenId : TokenId) (states : List TokenState) : Nat := (states.map (TokenState.balance tokenId)).sum

def supplies (tokenId : TokenId) (states : List TokenState) : Nat := (states.map (TokenState.supply tokenId)).sum

section
variable {B : Bincode} {verifyEd25519 : Address → Signature → Bytes → Bool} {tokenId : TokenId}

theorem Bincode.deserializeRegistry_bytes (B : Bincode) (s : TokenState) :
    B.deserializeRegistry (s.bytes B) = s.registry? := by
  cases s with
  | token d => exact B.datum_short d
  | registry r =>
    have := B.registry_leads r []
    rwa [List.append_nil] at this

/-- A registry decodes as a token datum of its supply. -/
theorem Bincode.deserializeDatum_registry (B : Bincode) (r : TokenRegistryDatum) :
    B.deserializeDatum (B.serializeRegistry r) = some ⟨r.tokenId, r.authority, r.currentSupply⟩ := by
  obtain ⟨rest, h⟩ := B.registry_fields r
  rw [h, B.datum_leads]

/-- Every datum counts, a registry with its supply. -/
theorem Bincode.deserializeDatum_bytes (B : Bincode) (tokenId : TokenId) (s : TokenState) :
    ∃ d, B.deserializeDatum (s.bytes B) = some d ∧
    (if d.tokenId = tokenId then d.amount.val else 0) = s.balance tokenId + s.supply tokenId := by
  cases s with
  | token d =>
    have := B.datum_leads d []
    rw [List.append_nil] at this
    exact ⟨d, this, rfl⟩
  | registry r => exact ⟨_, B.deserializeDatum_registry r, (Nat.zero_add _).symm⟩

theorem findRegistry_bytes (B : Bincode) (states : List TokenState) (tokenId : TokenId) :
    findRegistry B (states.map (TokenState.bytes B)) tokenId = (registriesOf tokenId states).head? := by
  rw [findRegistry, List.filterMap_map, registriesOf, List.head?_filter]
  congr 2
  exact funext B.deserializeRegistry_bytes

theorem canonicalTokenTotal_ok {states : List TokenState} : ∀ {total r : U128},
    canonicalTokenTotal B tokenId total (states.map (TokenState.bytes B)) = .ok r →
      r.val = total.val + balances tokenId states + supplies tokenId states := by
  induction states with
  | nil =>
    intro total r h
    cases h
    rfl
  | cons s states ih =>
    intro total r h
    obtain ⟨d, hd, hcounts⟩ := B.deserializeDatum_bytes tokenId s
    have hsum : balances tokenId (s :: states) + supplies tokenId (s :: states) =
        (if d.tokenId = tokenId then d.amount.val else 0) + balances tokenId states + supplies tokenId states := by
      rw [hcounts]
      simp only [balances, supplies, List.map_cons, List.sum_cons]
      omega
    simp only [List.map_cons, canonicalTokenTotal, hd] at h
    split at h
    · rename_i hid
      rw [if_pos hid] at hsum
      split at h
      · cases h
      · split at h
        · cases h
        · rename_i total' hadd
          have := U128.checkedAdd_eq_some hadd
          have := ih h
          omega
    · rename_i hid
      rw [if_neg hid] at hsum
      have := ih h
      omega

/-- The one registry of the token states its supply. -/
theorem supplies_eq {states : List TokenState} {r : TokenRegistryDatum} (h : registriesOf tokenId states = [r]) :
    supplies tokenId states = r.currentSupply.val := by
  have hsum : supplies tokenId states = ((registriesOf tokenId states).map fun r => r.currentSupply.val).sum := by
    clear h
    induction states with
    | nil => rfl
    | cons s states ih =>
      have hstep : supplies tokenId (s :: states) = s.supply tokenId + supplies tokenId states := rfl
      cases s with
      | token d =>
        rw [hstep, ih, TokenState.supply, Nat.zero_add]
        rfl
      | registry r =>
        have hcons : (TokenState.registry r :: states).filterMap TokenState.registry? =
          r :: states.filterMap TokenState.registry? := rfl
        rw [hstep, ih, TokenState.supply, registriesOf, registriesOf, hcons]
        by_cases hid : r.tokenId = tokenId
        · rw [if_pos hid, List.filter_cons_of_pos (by simpa using hid), List.map_cons, List.sum_cons]
        · rw [if_neg hid, List.filter_cons_of_neg (by simpa using hid), Nat.zero_add]
  rw [hsum, h]
  simp

theorem checkNextRegistry_ok {registry next : TokenRegistryDatum} {expected : U128}
    (h : checkNextRegistry registry next expected = .ok ()) : next.currentSupply = expected := by
  unfold checkNextRegistry at h
  split at h
  · cases h
  · rename_i hno
    exact not_not.mp (not_or.mp hno).1

/-- The supply follows the totals. -/
theorem expectedSupply_ok {registry : TokenRegistryDatum} {inputTotal outputTotal supply : U128} {redeemer : Scy20Redeemer}
    (h : expectedSupply registry inputTotal outputTotal redeemer = .ok supply) :
    supply.val + inputTotal.val = registry.currentSupply.val + outputTotal.val := by
  cases redeemer with
  | mint signature nonce =>
    simp only [expectedSupply] at h
    split at h
    · cases h
    · rename_i delta hdelta
      split at h
      · cases h
      · rename_i s hs
        cases h
        have := U128.checkedSub_eq_some hdelta
        have := U128.checkedAdd_eq_some hs
        omega
  | transfer signature nonce =>
    simp only [expectedSupply] at h
    split at h
    · rename_i heq
      cases h
      rw [heq]
    · cases h
  | burn signature nonce =>
    simp only [expectedSupply] at h
    split at h
    · cases h
    · rename_i delta hdelta
      split at h
      · cases h
      · rename_i s hs
        cases h
        have := U128.checkedSub_eq_some hdelta
        have := U128.checkedSub_eq_some hs
        omega

/-- A context the host builds of these data. -/
structure Holds (B : Bincode) (ctx : TxContext) (ins outs : List TokenState) : Prop where
  inputs : ctx.inputDatums = ins.map (TokenState.bytes B)
  outputs : ctx.outputDatums = outs.map (TokenState.bytes B)
  ledger : ctx.ledgerState = ctx.inputDatums

/-- Whatever is accepted leaves the sum of the balances as it was. -/
theorem scy20_balances_kept {datum : Scy20Datum} {redeemer : Scy20Redeemer} {ctx : TxContext} {ins outs : List TokenState}
    {registry next : TokenRegistryDatum} (hctx : Holds B ctx ins outs) (hin : registriesOf datum.tokenId ins = [registry])
    (hout : registriesOf datum.tokenId outs = [next])
    (h : validateScy20Execution B verifyEd25519 datum redeemer ctx = .ok ()) :
    balances datum.tokenId outs = balances datum.tokenId ins := by
  have hfound : findRegistry B (ins.map (TokenState.bytes B)) datum.tokenId = some registry := by
    rw [findRegistry_bytes, hin]
    rfl
  have hfoundNext : findRegistry B (outs.map (TokenState.bytes B)) datum.tokenId = some next := by
    rw [findRegistry_bytes, hout]
    rfl
  simp only [validateScy20Execution, hctx.ledger, hctx.inputs, hctx.outputs, hfound, hfoundNext] at h
  split at h
  · cases h
  · split at h
    · cases h
    · split at h
      · cases h
      · split at h
        · cases h
        · rename_i inputTotal hinput
          split at h
          · cases h
          · rename_i outputTotal houtput
            split at h
            · cases h
            · rename_i expected hexpected
              have hi := canonicalTokenTotal_ok hinput
              have ho := canonicalTokenTotal_ok houtput
              have hnext := checkNextRegistry_ok h
              have hsupply := expectedSupply_ok hexpected
              rw [supplies_eq hin] at hi
              rw [supplies_eq hout, hnext] at ho
              have hzero : (0 : U128).val = 0 := rfl
              omega

/-- For every accepted execution on such a context, with one registry of the token spent and
    one created: the supply changes as the balances do exactly when it does not change. -/
theorem scy20_supply_iff {datum : Scy20Datum} {redeemer : Scy20Redeemer} {ctx : TxContext} {ins outs : List TokenState}
    {registry next : TokenRegistryDatum} (hctx : Holds B ctx ins outs) (hin : registriesOf datum.tokenId ins = [registry])
    (hout : registriesOf datum.tokenId outs = [next])
    (h : validateScy20Execution B verifyEd25519 datum redeemer ctx = .ok ()) :
    ((next.currentSupply.val : Int) - registry.currentSupply.val =
      balances datum.tokenId outs - balances datum.tokenId ins) ↔ next.currentSupply = registry.currentSupply := by
  rw [scy20_balances_kept hctx hin hout h, Fin.ext_iff]
  omega

/-- A mint of `d` of a token as its authority means it: the one registry is spent and recreated
    with the supply raised by `d`, the balances rise by `d`, and the redeemer is signed. -/
structure MintOf (B : Bincode) (verifyEd25519 : Address → Signature → Bytes → Bool) (tokenId : TokenId)
    (registry : TokenRegistryDatum) (d : U128) (signature : Signature) (ctx : TxContext) (ins outs : List TokenState) :
    Prop where
  holds : Holds B ctx ins outs
  spent : registriesOf tokenId ins = [registry]
  recreated : registriesOf tokenId outs =
    [⟨tokenId, registry.authority, registry.currentSupply + d, registry.maxSupply, registry.nonce + 1⟩]
  positive : 0 < d.val
  fits : registry.currentSupply.val + d.val < 2 ^ 128
  capped : ∀ max ∈ registry.maxSupply, registry.currentSupply.val + d.val ≤ max.val
  counted : registry.nonce.toNat + 1 < 2 ^ 64
  amounts : ∀ t, TokenState.token t ∈ ins ++ outs → t.tokenId = tokenId → 0 < t.amount.val
  minted : balances tokenId outs = balances tokenId ins + d.val
  signed : verifyEd25519 registry.authority signature ctx.txHash.bytes = true

/-- No such mint is accepted: the registries count as balances too, so the totals differ by
    twice what the registry names. -/
theorem mint_rejected {datum : Scy20Datum} {registry : TokenRegistryDatum} {d : U128} {signature : Signature}
    {ctx : TxContext} {ins outs : List TokenState}
    (h : MintOf B verifyEd25519 datum.tokenId registry d signature ctx ins outs) :
    validateScy20Execution B verifyEd25519 datum (.mint signature registry.nonce) ctx ≠ .ok () := by
  intro hok
  have hkept := scy20_balances_kept h.holds h.spent h.recreated hok
  have hminted := h.minted
  have hpositive := h.positive
  omega

end

/-! ## The encoding of the fixed sizes

`bincode` writes integers little-endian at their size, arrays without a length and an
option behind a tag. -/

namespace Fixint

def u128le (x : U128) : Bytes := leBytes 16 x.val

def u128 : Decoder U128 := do
  let bs ← readExact .unexpectedEof 16
  return Fin.ofNat (2 ^ 128) (leNat bs)

theorem u128_reads : Reads (fun _ => True) u128le u128 := by
  refine (readExact_reads SerializationError.unexpectedEof 16).map (fun bs => Fin.ofNat (2 ^ 128) (leNat bs)) u128le
    (fun _ => rfl) (fun _ _ => leBytes_length 16 _) ?_ ?_
  · intro x _
    rw [u128le, leNat_leBytes, Nat.mod_eq_of_lt (show x.val < 256 ^ 16 from x.isLt)]
    exact Fin.ext (Nat.mod_eq_of_lt x.isLt)
  · intro bs h
    refine ⟨trivial, ?_⟩
    have hlt : leNat bs < 2 ^ 128 := leNat_lt h
    show leBytes 16 (leNat bs % 2 ^ 128) = bs
    rw [Nat.mod_eq_of_lt hlt]
    exact leBytes_of_length h

def optionBytes : Option U128 → Bytes
  | none => [0]
  | some x => 1 :: u128le x

def option : Decoder (Option U128) := do
  let tag ← Decoder.u8
  if tag == 0 then return none
  else if tag == 1 then do
    let x ← u128
    return some x
  else throw .invalidEncoding

theorem option_leads (o : Option U128) (r : Bytes) : option (optionBytes o ++ r) = .ok (o, r) := by
  cases o with
  | none => exact u8_reads.run_bind (a := 0) trivial r _
  | some x =>
    have htag := u8_reads.run_bind (a := 1) trivial (u128le x ++ r) fun tag =>
      (if tag == 0 then return none else if tag == 1 then do
        let x ← u128
        return some x
      else throw .invalidEncoding : Decoder (Option U128))
    exact htag.trans (u128_reads.run_bind trivial r _)

theorem option_bind (o : Option U128) (r : Bytes) {β : Type} (f : Option U128 → Decoder β) :
    (option >>= f) (optionBytes o ++ r) = f o r := by
  show (option (optionBytes o ++ r) >>= fun p => f p.1 p.2) = _
  rw [option_leads]
  rfl

def datumBytes (d : Scy20Datum) : Bytes := d.tokenId.bytes ++ d.owner.bytes ++ u128le d.amount

def datum : Decoder Scy20Datum := do
  let tokenId ← Decoder.hash256
  let owner ← Decoder.hash256
  let amount ← u128
  return ⟨tokenId, owner, amount⟩

def registryBytes (r : TokenRegistryDatum) : Bytes :=
  datumBytes ⟨r.tokenId, r.authority, r.currentSupply⟩ ++ (optionBytes r.maxSupply ++ u64le r.nonce)

def registry : Decoder TokenRegistryDatum := do
  let state ← datum
  let maxSupply ← option
  let nonce ← Decoder.u64
  return ⟨state.tokenId, state.owner, state.amount, maxSupply, nonce⟩

theorem datum_leads (d : Scy20Datum) (r : Bytes) : datum (datumBytes d ++ r) = .ok (d, r) := by
  rw [datumBytes, List.append_assoc, List.append_assoc, datum, hash256_reads.run_bind trivial,
    hash256_reads.run_bind trivial, u128_reads.run_bind trivial]
  rfl

theorem datum_bind (d : Scy20Datum) (r : Bytes) {β : Type} (f : Scy20Datum → Decoder β) :
    (datum >>= f) (datumBytes d ++ r) = f d r := by
  show (datum (datumBytes d ++ r) >>= fun p => f p.1 p.2) = _
  rw [datum_leads]
  rfl

theorem registry_leads (x : TokenRegistryDatum) (r : Bytes) : registry (registryBytes x ++ r) = .ok (x, r) := by
  rw [registryBytes, List.append_assoc, List.append_assoc, registry, datum_bind, option_bind,
    u64_reads.run_bind trivial]
  rfl

end Fixint

def fixint : Bincode where
  serializeDatum := Fixint.datumBytes
  serializeRegistry := Fixint.registryBytes
  deserializeDatum bs := (Fixint.datum bs).toOption.map (·.1)
  deserializeRegistry bs := (Fixint.registry bs).toOption.map (·.1)
  datum_leads d rest := by
    rw [Fixint.datum_leads]
    rfl
  registry_leads r rest := by
    rw [Fixint.registry_leads]
    rfl
  registry_fields r := ⟨_, rfl⟩
  datum_short d := by
    have := Fixint.datum_bind d [] fun state => (do
      let maxSupply ← Fixint.option
      let nonce ← Decoder.u64
      return (⟨state.tokenId, state.owner, state.amount, maxSupply, nonce⟩ : TokenRegistryDatum) : Decoder _)
    rw [List.append_nil] at this
    rw [Fixint.registry, this]
    rfl

/-! ## A transfer and a mint -/

/-- A public key, and its signature of thirty-two bytes `0x42`. -/
def aliceKey : Address := ⟨beBytes 32 0x8a88e3dd7409f195fd52db2d3cba5d72ca6709bf1d94121bf3748801b40f6f5c, by simp⟩

def sampleTxHash : Hash256 := ⟨List.replicate 32 0x42, by simp⟩

def aliceSignature : Signature :=
  ⟨beBytes 64 0xf7db92230bca941091b208b10328f68917d0d67cdf46a6f0a357da6d09ea608c6727a4b80efc39d3ee8869de8df4b8196499b895e441c428b950e44bbca6cf05,
    by simp⟩

/-- Ed25519 on what the samples ask. -/
def knowsAlice : Address → Signature → Bytes → Bool :=
  fun key signature message => key == aliceKey && signature == aliceSignature && message == sampleTxHash.bytes

def sampleToken : TokenId := ⟨List.replicate 32 1, by simp⟩

def sampleRegistry (supply : U128) (nonce : UInt64) : TokenRegistryDatum := ⟨sampleToken, aliceKey, supply, none, nonce⟩

def sampleContext (ins outs : List TokenState) : TxContext :=
  ⟨sampleTxHash, 1700000000, 10000, 0, ins.map (TokenState.bytes fixint), outs.map (TokenState.bytes fixint),
    ins.map (TokenState.bytes fixint)⟩

theorem sampleContext_holds (ins outs : List TokenState) : Holds fixint (sampleContext ins outs) ins outs := ⟨rfl, rfl, rfl⟩

set_option maxRecDepth 10000 in
/-- A transfer of the whole supply. -/
theorem scy20_supply_iff_transfer :
    let ins := [TokenState.token ⟨sampleToken, aliceKey, 100⟩, .registry (sampleRegistry 100 7)]
    let outs := [TokenState.token ⟨sampleToken, sampleToken, 100⟩, .registry (sampleRegistry 100 8)]
    ((((sampleRegistry 100 8).currentSupply.val : Int) - (sampleRegistry 100 7).currentSupply.val =
      balances sampleToken outs - balances sampleToken ins) ↔
        (sampleRegistry 100 8).currentSupply = (sampleRegistry 100 7).currentSupply) := by
  intro ins outs
  have haccepted : validateScy20Execution fixint knowsAlice ⟨sampleToken, aliceKey, 100⟩ (.transfer aliceSignature 7)
      (sampleContext ins outs) = .ok () := by decide +kernel
  exact scy20_supply_iff (sampleContext_holds ins outs) (by decide +kernel) (by decide +kernel) haccepted

set_option maxRecDepth 10000 in
/-- A mint that raises the supply by 50 and gives the 50 to nobody. -/
theorem minted_to_nobody :
    let ins := [TokenState.registry (sampleRegistry 100 7)]
    let outs := [TokenState.registry (sampleRegistry 150 8)]
    Holds fixint (sampleContext ins outs) ins outs ∧ registriesOf sampleToken ins = [sampleRegistry 100 7] ∧
      registriesOf sampleToken outs = [sampleRegistry 150 8] ∧
      validateScy20Execution fixint knowsAlice ⟨sampleToken, aliceKey, 1⟩ (.mint aliceSignature 7) (sampleContext ins outs) =
        .ok () ∧
      ((sampleRegistry 150 8).currentSupply.val : Int) - (sampleRegistry 100 7).currentSupply.val ≠
        balances sampleToken outs - balances sampleToken ins := by
  intro ins outs
  exact ⟨sampleContext_holds ins outs, by decide +kernel, by decide +kernel, by decide +kernel, by decide +kernel⟩

/-- A mint of 50 to the authority. -/
def aliceMintIns : List TokenState := [.registry (sampleRegistry 100 7)]

def aliceMintOuts : List TokenState := [.token ⟨sampleToken, aliceKey, 50⟩, .registry (sampleRegistry 150 8)]

set_option maxRecDepth 10000 in
theorem alice_mints : MintOf fixint knowsAlice sampleToken (sampleRegistry 100 7) 50 aliceSignature
    (sampleContext aliceMintIns aliceMintOuts) aliceMintIns aliceMintOuts where
  holds := sampleContext_holds _ _
  spent := by decide +kernel
  recreated := by decide +kernel
  positive := by decide
  fits := by decide
  capped := fun max hmax => by cases hmax
  counted := by decide
  amounts := fun t ht _ => by
    simp only [aliceMintIns, aliceMintOuts, List.cons_append, List.nil_append, List.mem_cons, reduceCtorEq, false_or,
      TokenState.token.injEq, List.not_mem_nil, or_false] at ht
    rw [ht]
    decide
  minted := by decide +kernel
  signed := by decide +kernel

theorem mint_rejected_alice : validateScy20Execution fixint knowsAlice ⟨sampleToken, aliceKey, 50⟩
    (.mint aliceSignature (sampleRegistry 100 7).nonce) (sampleContext aliceMintIns aliceMintOuts) ≠ .ok () :=
  mint_rejected alice_mints

set_option maxRecDepth 10000 in
/-- The totals are 100 and 200, so the supply should be 200. -/
theorem alice_mint_refused : MintOf fixint knowsAlice sampleToken (sampleRegistry 100 7) 50 aliceSignature
      (sampleContext aliceMintIns aliceMintOuts) aliceMintIns aliceMintOuts ∧
    validateScy20Execution fixint knowsAlice ⟨sampleToken, aliceKey, 50⟩ (.mint aliceSignature 7)
      (sampleContext aliceMintIns aliceMintOuts) = .error .invalidRegistryState :=
  ⟨alice_mints, by decide +kernel⟩

end Scytale
