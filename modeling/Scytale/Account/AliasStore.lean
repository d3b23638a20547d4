/-
  Scytale.Account.AliasStore — account numbers and the store of their bindings
  (crates/scytale-account/src/candidate.rs, protocol.rs and store.rs).

  The store has a map each way, from account numbers to the texts of passbooks and back; both
  are by text.
  - `bind_outcome`: everything `bind` can do, said once.
  - `Consistent.bind`: the two maps stay each other's inverse, which is what is checked when
    the file is opened (`validateIndexes_iff`).
-/
import Scytale.Core.Address

namespace Scytale

open Lib

/-! ## Account numbers -/

/-- `"SCY-"`. -/
def accountPrefix : Bytes := [0x53, 0x43, 0x59, 0x2d]

def isAsciiDigit (b : UInt8) : Bool := 0x30 ≤ b && b ≤ 0x39

def isAccountNumber (value : Bytes) : Bool :=
  value.take 4 == accountPrefix && (value.drop 4).length == 6 && (value.drop 4).all isAsciiDigit

/-- `SCY-` and six digits. -/
structure AccountNumber where
  text : Bytes
  format : isAccountNumber text = true
  deriving DecidableEq

/-- Nothing for the error `InvalidFormat`. -/
def AccountNumber.new (value : Bytes) : Option AccountNumber :=
  if h : isAccountNumber value = true then some ⟨value, h⟩ else none

theorem AccountNumber.ext_text {a b : AccountNumber} (h : a.text = b.text) : a = b := by
  obtain ⟨a, _⟩ := a
  obtain ⟨b, _⟩ := b
  cases h
  rfl

instance : Ord AccountNumber := ⟨compareOn AccountNumber.text⟩

instance : Std.TransOrd AccountNumber := inferInstanceAs (Std.TransCmp (compareOn AccountNumber.text))

instance : Std.LawfulEqOrd AccountNumber where
  eq_of_compare {a b} h := by
    have h' : compare a.text b.text = .eq := h
    exact AccountNumber.ext_text (Std.compare_eq_iff_eq.mp h')

/-- `b"SCYTALE-ACCOUNT-BIND-V1\\0"`. -/
def bindTag : Bytes :=
  [0x53, 0x43, 0x59, 0x54, 0x41, 0x4c, 0x45, 0x2d, 0x41, 0x43, 0x43, 0x4f, 0x55, 0x4e, 0x54, 0x2d, 0x42, 0x49, 0x4e, 0x44,
    0x2d, 0x56, 0x31, 0x00]

def bindMessage (publicKey passbookId : Bytes) (candidate : AccountNumber) : Bytes :=
  bindTag ++ publicKey ++ u32le (UInt32.ofNat passbookId.length) ++ passbookId ++ candidate.text

/-! ## The store -/

inductive StoreError where
  | io (text : String)
  | serialization (text : String)
  | accountConflict
  | passbookConflict
  | emptyPassbookId
  | inconsistentIndexes
  deriving DecidableEq

structure AliasStore where
  byAccount : Table AccountNumber Bytes
  byPassbook : Table Bytes AccountNumber

namespace AliasStore

def empty : AliasStore := ⟨∅, ∅⟩

/-- `fault` is what writing the file reports, if it does; the store is then as it was. -/
def bind (fault : Option StoreError) (store : AliasStore) (account : AccountNumber) (passbookId : Bytes) :
    AliasStore × Except StoreError Unit :=
  if (Core.trim passbookId).isEmpty then (store, .error .emptyPassbookId)
  else match store.byAccount[account]? with
    | some existing => if existing = passbookId then (store, .ok ()) else (store, .error .accountConflict)
    | none =>
      if store.byPassbook.contains passbookId then (store, .error .passbookConflict)
      else match fault with
        | some e => (store, .error e)
        | none => (⟨store.byAccount.insert account passbookId, store.byPassbook.insert passbookId account⟩, .ok ())

/-- The check of a file that is opened: what each map has, the other has the other way. -/
def validateIndexes (store : AliasStore) : Except StoreError Unit :=
  if store.byAccount.toList.any (fun p => store.byPassbook[p.2]? != some p.1) ||
      store.byPassbook.toList.any (fun p => store.byAccount[p.2]? != some p.1) then
    .error .inconsistentIndexes
  else .ok ()

/-- Neither the number nor the text was bound, and both are now. -/
structure Bound (store : AliasStore) (account : AccountNumber) (passbookId : Bytes) (store' : AliasStore) : Prop where
  unnumbered : store.byAccount[account]? = none
  unnamed : store.byPassbook[passbookId]? = none
  result : store' = ⟨store.byAccount.insert account passbookId, store.byPassbook.insert passbookId account⟩

/-- A binding is made, or the store stays as it is. -/
theorem bind_outcome (fault : Option StoreError) (store : AliasStore) (account : AccountNumber) (passbookId : Bytes) :
    (store.bind fault account passbookId).1 = store ∨
      Bound store account passbookId (store.bind fault account passbookId).1 := by
  unfold bind
  split
  · exact .inl rfl
  · split
    · split <;> exact .inl rfl
    · rename_i hnone
      split
      · exact .inl rfl
      · rename_i hfresh
        cases fault with
        | some e => exact .inl rfl
        | none => exact .inr ⟨hnone, (Table.not_contains_iff _ _).mp (Bool.eq_false_of_not_eq_true hfresh), rfl⟩

/-- What is free is bound, when writing succeeds. -/
theorem bind_of_free {store : AliasStore} {account : AccountNumber} {passbookId : Bytes}
    (htext : (Core.trim passbookId).isEmpty = false) (haccount : store.byAccount[account]? = none)
    (hpassbook : store.byPassbook[passbookId]? = none) :
    Bound store account passbookId (store.bind none account passbookId).1 := by
  have hfresh : store.byPassbook.contains passbookId = false := (Table.not_contains_iff _ _).mpr hpassbook
  refine ⟨haccount, hpassbook, ?_⟩
  simp only [bind, htext, haccount, hfresh, Bool.false_eq_true, if_false]

/-! ## Consistency -/

/-- The maps are each other's inverse. -/
def Consistent (store : AliasStore) : Prop :=
  ∀ (account : AccountNumber) (passbookId : Bytes),
    store.byAccount[account]? = some passbookId ↔ store.byPassbook[passbookId]? = some account

theorem consistent_empty : empty.Consistent := by
  intro account passbookId
  simp [empty]

theorem Bound.consistent {store store' : AliasStore} {account : AccountNumber} {passbookId : Bytes}
    (h : Bound store account passbookId store') (hc : store.Consistent) : store'.Consistent := by
  intro account' passbookId'
  rw [h.result, Table.get_insert, Table.get_insert]
  by_cases ha : account = account'
  · subst ha
    by_cases hp : passbookId = passbookId'
    · subst hp
      simp
    · rw [if_pos rfl, if_neg hp, Option.some.injEq]
      refine ⟨fun heq => absurd heq hp, fun hbound => ?_⟩
      rw [← hc, h.unnumbered] at hbound
      cases hbound
  · rw [if_neg ha]
    by_cases hp : passbookId = passbookId'
    · subst hp
      rw [if_pos rfl, Option.some.injEq]
      refine ⟨fun hbound => ?_, fun heq => absurd heq ha⟩
      rw [hc, h.unnamed] at hbound
      cases hbound
    · rw [if_neg hp]
      exact hc account' passbookId'

theorem Consistent.bind {store : AliasStore} (hc : store.Consistent) (fault : Option StoreError) (account : AccountNumber)
    (passbookId : Bytes) : (store.bind fault account passbookId).1.Consistent := by
  rcases bind_outcome fault store account passbookId with h | h
  · rw [h]
    exact hc
  · exact h.consistent hc

/-- What the store writes is accepted when it is opened. -/
theorem validateIndexes_iff {store : AliasStore} : store.validateIndexes = .ok () ↔ store.Consistent := by
  have hcheck : store.validateIndexes = .ok () ↔
      (∀ p ∈ store.byAccount.toList, store.byPassbook[p.2]? = some p.1) ∧
        ∀ p ∈ store.byPassbook.toList, store.byAccount[p.2]? = some p.1 := by
    unfold validateIndexes
    split
    · rename_i hbad
      refine ⟨fun h => (by cases h), fun ⟨h, h'⟩ => ?_⟩
      rcases Bool.or_eq_true_iff.mp hbad with hbad | hbad
      · obtain ⟨p, hp, hne⟩ := List.any_eq_true.mp hbad
        exact absurd (h p hp) (bne_iff_ne.mp hne)
      · obtain ⟨p, hp, hne⟩ := List.any_eq_true.mp hbad
        exact absurd (h' p hp) (bne_iff_ne.mp hne)
    · rename_i hgood
      simp only [Bool.or_eq_true, List.any_eq_true, not_or, not_exists, not_and, bne_iff_ne, not_not] at hgood
      exact ⟨fun _ => hgood, fun _ => rfl⟩
  rw [hcheck]
  constructor
  · intro h account passbookId
    exact ⟨fun ha => h.1 (account, passbookId) (Table.mem_toList.mpr ha),
      fun hp => h.2 (passbookId, account) (Table.mem_toList.mpr hp)⟩
  · intro hc
    exact ⟨fun p hp => (hc p.1 p.2).mp (Table.mem_toList.mp hp), fun p hp => (hc p.2 p.1).mpr (Table.mem_toList.mp hp)⟩

end AliasStore

end Scytale
