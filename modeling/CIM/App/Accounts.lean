import CIM.App.AuthService
import Mathlib.Data.Option.Basic

/-!
# The accounts behind the table

What the service is for: an account has a mobile that no other account has and one secret, which a
request sets as a whole. A login is granted for the secret that was set last. Every run of the
service is a run of the accounts with the same answers.
-/
namespace CIM.app

open Transition Password dao HashUtil

/-- A password with the salt it was hashed with. -/
structure Secret where
  password : Bytes
  salt : Bytes

/-- The digest is that of the password. -/
def Secret.Admits (P : Pbkdf2) (s : Secret) (q : Bytes) : Prop :=
  P.derive q s.salt iterations 32 = P.derive s.password s.salt iterations 32

structure Account (κ : Type) where
  mobile : κ
  email : Option κ
  secret : Secret
  status : Int32

/-- What a task has been allowed to do to the accounts. -/
inductive Change (κ : Type)
  | opening (mobile : κ) (email : Option κ) (secret : Secret)
  | setting (id : UInt64) (secret : Secret)

structure Accounts (κ : Type) where
  find : UInt64 → Option (Account κ)
  pending : Nat → Option (Change κ)

variable {κ : Type} (L : Libraries κ)

def emailKey (email : Bytes) : Option κ := if email.isEmpty then none else some (L.collate email)

namespace Accounts

def allow (a : Accounts κ) (task : Nat) (c : Change κ) : Accounts κ :=
  { a with pending := Function.update a.pending task (some c) }

def settle (a : Accounts κ) (task : Nat) : Accounts κ :=
  { a with pending := Function.update a.pending task none }

def set (a : Accounts κ) (id : UInt64) (acc : Account κ) : Accounts κ :=
  { a with find := Function.update a.find id (some acc) }

/-- The account is there under the mobile, not blocked, and the password is right for it. -/
def Grants (a : Accounts κ) (mobile password : Bytes) (id : UInt64) : Prop :=
  ∃ p acc, AuthService.decodePassword L password = .ok p ∧ a.find id = some acc ∧
    acc.mobile = L.collate mobile ∧ acc.secret.Admits L.pbkdf2 p ∧ acc.status = 1

/-- The rules. A request that was allowed to change an account may find it changed by another one
when it writes. -/
inductive Step : Accounts κ → AuthOp × Option AuthResult → Accounts κ → Prop
  | login {a task mobile password fault rand r}
      (hok : ∀ u, r = .ok u → a.Grants L mobile password u.id)
      (hall : fault = false → ∀ id, a.Grants L mobile password id → ∃ u, r = .ok u ∧ u.id = id) :
      Step a (.begin task (.authenticate mobile password) fault rand, some r) a
  | refused {a task request fault rand err} (h : ∀ m p, request ≠ .authenticate m p) :
      Step a (.begin task request fault rand, some (.error err)) a
  | enroll {a task mobile password email nickname fault salt p}
      (hp : AuthService.decodePassword L password = .ok p)
      (hfree : fault = false → ∀ id acc, a.find id = some acc → acc.mobile ≠ L.collate mobile) :
      Step a (.begin task (.register mobile password email nickname) fault (some salt), none)
        (a.allow task (.opening (L.collate mobile) (emailKey L email) ⟨p, salt⟩))
  | reset {a task mobile password salt p id acc}
      (hp : AuthService.decodePassword L password = .ok p) (hacc : a.find id = some acc)
      (hm : acc.mobile = L.collate mobile) :
      Step a (.begin task (.forget mobile password) false (some salt), none)
        (a.allow task (.setting id ⟨p, salt⟩))
  | change {a task id old_password new_password salt acc} (hacc : a.find id = some acc)
      (hold : acc.secret.Admits L.pbkdf2 old_password) (hlen : 6 ≤ new_password.length) :
      Step a (.begin task (.changePassword id old_password new_password) false (some salt), none)
        (a.allow task (.setting id ⟨new_password, salt⟩))
  | opened {a task answer m e secret u} (hp : a.pending task = some (.opening m e secret))
      (hu : u.id = answer.id) (hid : a.find u.id = none)
      (hm : ∀ id acc, a.find id = some acc → acc.mobile ≠ m)
      (he : ∀ id acc k, a.find id = some acc → e = some k → acc.email ≠ some k) :
      Step a (.finish task answer, some (.ok u))
        ((a.set u.id ⟨m, e, secret, 1⟩).settle task)
  | saved {a task answer id secret u acc} (hp : a.pending task = some (.setting id secret))
      (hu : u.id = id) (hacc : a.find id = some acc) :
      Step a (.finish task answer, some (.ok u))
        ((a.set id { acc with secret := secret }).settle task)
  | failed {a task answer err} (hp : (a.pending task).isSome) :
      Step a (.finish task answer, some (.error err)) (a.settle task)
  | status {a id status acc} (hacc : a.find id = some acc) :
      Step a (.updateStatus id status none, none) (a.set id { acc with status := status })
  | unchanged {a id status fault} (h : (fault : Option String) = none → a.find id = none) :
      Step a (.updateStatus id status fault, none) a

end Accounts

/-- The record was written for the secret. -/
structure Holds (ph : Bytes) (s : Secret) : Prop where
  salt : s.salt.length = 16
  hash : ph = Hash L.pbkdf2 (some s.salt) s.password iterations
  written : ph.isEmpty = false

structure Matches (r : User) (acc : Account κ) : Prop where
  mobile : L.collate r.mobile = acc.mobile
  email : emailKey L r.email = acc.email
  status : r.status = acc.status
  secret : Holds L r.password_hash acc.secret

inductive Announces : Pending → Change κ → Prop
  | create {u s} (h : Holds L u.password_hash s) (hs : u.status = 1) :
      Announces (.create u) (.opening (L.collate u.mobile) (emailKey L u.email) s)
  | update {u ph failed s} (h : Holds L ph s) :
      Announces (.update u.id ph u failed) (.setting u.id s)

structure Shows (s : Service) (a : Accounts κ) : Prop where
  ids : (s.users.map User.id).Nodup
  mobiles : (s.users.map fun r => L.collate r.mobile).Nodup
  row : ∀ r ∈ s.users, ∃ acc, a.find r.id = some acc ∧ Matches L r acc
  account : ∀ id acc, a.find id = some acc → ∃ r ∈ s.users, r.id = id
  pending : ∀ t, Option.Rel (Announces L) (s.pending t) (a.pending t)
  stands : ∀ t id secret, a.pending t = some (.setting id secret) → ∃ r ∈ s.users, r.id = id

variable {L} {s : Service} {a : Accounts κ} {u r : User} {acc : Account κ} {p q : Bytes}
  {mobile password : Bytes} {fault : Bool} {id : UInt64}

/-- A record verifies the passwords of the same digest. -/
theorem Holds.verify_iff {ph : Bytes} {secret : Secret} (h : Holds L ph secret) (q : Bytes) :
    Verify L.pbkdf2 L.zero_x q ph = true ↔ secret.Admits L.pbkdf2 q := by
  have h16 : int32 16 = 16 := rfl
  have h32 : int32 32 = 32 := rfl
  have hrun : L.pbkdf2.derive secret.password secret.salt iterations 32 =
      L.pbkdf2.run secret.password (int32 secret.password.length) secret.salt 16
        (int32 iterations.toNat) 32 (List.replicate 32 0) := by
    rw [Pbkdf2.derive, h.salt]
    exact congrArg₂ (fun n m => L.pbkdf2.run secret.password (int32 secret.password.length)
      secret.salt n (int32 iterations.toNat) m (List.replicate 32 0)) h16 h32
  cases hdk : L.pbkdf2.run secret.password (int32 secret.password.length) secret.salt 16
      (int32 iterations.toNat) 32 (List.replicate 32 0) with
  | none =>
      have hempty : Hash L.pbkdf2 (some secret.salt) secret.password iterations = [] := by
        simp only [Hash, hdk]
      have hwritten := h.written
      rw [h.hash, hempty] at hwritten
      cases hwritten
  | some dk =>
      have hrecord : Hash L.pbkdf2 (some secret.salt) secret.password iterations =
          record iterations secret.salt dk := by
        simp only [Hash, hdk]
      have hlen : dk.length = 32 := L.pbkdf2.length_run _ _ _ _ _ _ _ _ hdk
      rw [h.hash, hrecord, Verify_iff (readRecord_record L.zero_x iterations secret.salt dk),
        hlen, Secret.Admits, hrun, hdk]

theorem ok_of_bind {α β ε : Type} {x : Except ε α} {f : α → Except ε β} {b : β}
    (h : x >>= f = .ok b) : ∃ a, x = .ok a ∧ f a = .ok b := by
  cases x with
  | error e => cases h
  | ok a => exact ⟨a, rfl, h⟩

theorem hashPassword_ok {rand : Option Bytes} {err : String} {ph : Bytes}
    (h : AuthService.hashPassword L rand p err = .ok ph) :
    ∃ salt, rand = some salt ∧ ph = Hash L.pbkdf2 (some salt) p iterations ∧
      ph.isEmpty = false := by
  simp only [AuthService.hashPassword] at h
  split at h
  · cases h
  · rename_i hne
    cases h
    cases rand with
    | none => exact absurd rfl hne
    | some salt => exact ⟨salt, rfl, rfl, Bool.eq_false_iff.mpr hne⟩

theorem Shows.eq_of_mobile (h : Shows L s a) (hu : u ∈ s.users) (hr : r ∈ s.users)
    (hm : L.collate u.mobile = L.collate r.mobile) : u = r :=
  List.inj_on_of_nodup_map h.mobiles hu hr hm

theorem Shows.eq_of_id (h : Shows L s a) (hu : u ∈ s.users) (hr : r ∈ s.users)
    (hid : u.id = r.id) : u = r :=
  List.inj_on_of_nodup_map h.ids hu hr hid

/-- The row of an account. -/
theorem Shows.exists_row (h : Shows L s a) (hacc : a.find id = some acc) :
    ∃ r ∈ s.users, r.id = id ∧ Matches L r acc := by
  obtain ⟨r, hr, rfl⟩ := h.account id acc hacc
  obtain ⟨acc', hacc', hmatch⟩ := h.row r hr
  rw [hacc] at hacc'
  cases hacc'
  exact ⟨r, hr, rfl, hmatch⟩

theorem Shows.announced (h : Shows L s a) {task : Nat} {pending : Pending}
    (hp : s.pending task = some pending) :
    ∃ change, a.pending task = some change ∧ Announces L pending change := by
  have hrel := h.pending task
  rw [hp] at hrel
  cases hc : a.pending task with
  | none =>
      rw [hc] at hrel
      cases hrel
  | some change =>
      rw [hc] at hrel
      cases hrel with
      | some hann => exact ⟨change, rfl, hann⟩

theorem Shows.allow (h : Shows L s a) {task : Nat} {pending : Pending} {change : Change κ}
    (hann : Announces L pending change)
    (hstands : ∀ id secret, change = .setting id secret → ∃ r ∈ s.users, r.id = id) :
    Shows L { s with pending := Function.update s.pending task (some pending) }
      (a.allow task change) where
  ids := h.ids
  mobiles := h.mobiles
  row := h.row
  account := h.account
  pending t := by
    by_cases ht : t = task
    · subst ht
      simpa only [Accounts.allow, Function.update_self] using Option.Rel.some hann
    · simpa only [Accounts.allow, Function.update_of_ne ht] using h.pending t
  stands t id secret hset := by
    by_cases ht : t = task
    · subst ht
      simp only [Accounts.allow, Function.update_self, Option.some.injEq] at hset
      exact hstands id secret hset
    · simp only [Accounts.allow, Function.update_of_ne ht] at hset
      exact h.stands t id secret hset

theorem Shows.settle (h : Shows L s a) (task : Nat) :
    Shows L { s with pending := Function.update s.pending task none } (a.settle task) where
  ids := h.ids
  mobiles := h.mobiles
  row := h.row
  account := h.account
  pending t := by
    by_cases ht : t = task
    · subst ht
      simpa only [Accounts.settle, Function.update_self] using Option.Rel.none
    · simpa only [Accounts.settle, Function.update_of_ne ht] using h.pending t
  stands t id secret hset := by
    by_cases ht : t = task
    · subst ht
      simp only [Accounts.settle, Function.update_self] at hset
      cases hset
    · simp only [Accounts.settle, Function.update_of_ne ht] at hset
      exact h.stands t id secret hset

/-- An `UPDATE` of the row of an account that leaves the keys alone. -/
theorem Shows.updated (h : Shows L s a) {f : User → User} {acc acc' : Account κ}
    (hid : ∀ r, (f r).id = r.id) (hmobile : ∀ r, (f r).mobile = r.mobile)
    (hacc : a.find id = some acc) (hf : ∀ r, Matches L r acc → Matches L (f r) acc') :
    Shows L { s with users := s.users.map fun r => if r.id = id then f r else r }
      (a.set id acc') := by
  have hrow : ∀ r : User, (if r.id = id then f r else r).id = r.id := by
    intro r
    split
    · exact hid r
    · rfl
  have hkey : ∀ r : User, (if r.id = id then f r else r).mobile = r.mobile := by
    intro r
    split
    · exact hmobile r
    · rfl
  have hmem : ∀ i, (∃ r ∈ s.users, r.id = i) →
      ∃ r ∈ s.users.map fun r => if r.id = id then f r else r, r.id = i := by
    rintro i ⟨r, hr, rfl⟩
    exact ⟨_, List.mem_map_of_mem hr, hrow r⟩
  refine ⟨?_, ?_, ?_, ?_, h.pending, fun t i secret hset => hmem i (h.stands t i secret hset)⟩
  · simpa only [List.map_map, Function.comp_def, hrow] using h.ids
  · simpa only [List.map_map, Function.comp_def, hkey] using h.mobiles
  · intro r' hr'
    obtain ⟨r, hr, rfl⟩ := List.mem_map.mp hr'
    obtain ⟨acc₀, hacc₀, hmatch⟩ := h.row r hr
    by_cases hi : r.id = id
    · subst hi
      rw [hacc] at hacc₀
      cases hacc₀
      rw [if_pos rfl, hid]
      exact ⟨acc', Function.update_self .., hf r hmatch⟩
    · rw [if_neg hi]
      exact ⟨acc₀, (Function.update_of_ne hi ..).trans hacc₀, hmatch⟩
  · intro i acc₀ hacc₀
    by_cases hi : i = id
    · subst hi
      exact hmem i (h.account i acc hacc)
    · exact hmem i (h.account i acc₀ ((Function.update_of_ne hi ..).symm.trans hacc₀))

variable [DecidableEq κ]

theorem getByMobile_some {users : List User}
    (h : UserDAO.GetByMobile L.collate users fault mobile = some u) :
    fault = false ∧ u ∈ users ∧ L.collate u.mobile = L.collate mobile := by
  unfold UserDAO.GetByMobile at h
  split at h
  · cases h
  · rename_i hf
    exact ⟨Bool.eq_false_iff.mpr hf, List.mem_of_find?_eq_some h,
      by simpa using List.find?_some h⟩

theorem getByMobile_none {users : List User}
    (h : UserDAO.GetByMobile L.collate users false mobile = none) :
    ∀ r ∈ users, L.collate r.mobile ≠ L.collate mobile := by
  intro r hr
  exact of_decide_eq_false (Bool.eq_false_iff.mpr (List.find?_eq_none.mp h r hr))

/-! ## Requests -/

theorem authenticate_iff (users : List User) :
    AuthService.Authenticate L users fault mobile password = .ok u ↔
      ∃ p, AuthService.decodePassword L password = .ok p ∧
        UserDAO.GetByMobile L.collate users fault mobile = some u ∧
        Verify L.pbkdf2 L.zero_x p u.password_hash = true ∧ u.status = 1 := by
  constructor
  · intro h
    obtain ⟨p, hp, h⟩ := ok_of_bind h
    refine ⟨p, hp, ?_⟩
    cases hu : UserDAO.GetByMobile L.collate users fault mobile with
    | none =>
        rw [hu] at h
        cases h
    | some v =>
        rw [hu] at h
        simp only [AuthService.verifyUser] at h
        split at h
        · cases h
        · rename_i hv
          split at h
          · cases h
          · rename_i hstatus
            cases h
            exact ⟨rfl, Bool.eq_true_of_not_eq_false hv, not_not.mp hstatus⟩
  · rintro ⟨p, hp, hu, hv, hs⟩
    rw [AuthService.Authenticate, hp, hu]
    change AuthService.verifyUser L p (some u) = .ok u
    rw [AuthService.verifyUser, if_neg (by rw [hv]; exact Bool.noConfusion),
      if_neg (not_not.mpr hs)]

/-- A login is answered as the accounts say. -/
theorem Shows.login (h : Shows L s a) :
    (∀ u, AuthService.Authenticate L s.users fault mobile password = .ok u →
      a.Grants L mobile password u.id) ∧
    (fault = false → ∀ id, a.Grants L mobile password id →
      ∃ u, AuthService.Authenticate L s.users fault mobile password = .ok u ∧ u.id = id) := by
  constructor
  · intro u hu
    obtain ⟨p, hp, hfound, hv, hs⟩ := (authenticate_iff s.users).mp hu
    obtain ⟨-, hmem, hm⟩ := getByMobile_some hfound
    obtain ⟨acc, hacc, hmatch⟩ := h.row u hmem
    exact ⟨p, acc, hp, hacc, hmatch.mobile.symm.trans hm, (hmatch.secret.verify_iff p).mp hv,
      hmatch.status.symm.trans hs⟩
  · rintro rfl id ⟨p, acc, hp, hacc, hm, hadmits, hs⟩
    obtain ⟨r, hr, rfl, hmatch⟩ := h.exists_row hacc
    have hrm : L.collate r.mobile = L.collate mobile := hmatch.mobile.trans hm
    cases hfound : UserDAO.GetByMobile L.collate s.users false mobile with
    | none => exact absurd hrm (getByMobile_none hfound r hr)
    | some u =>
        obtain ⟨-, hu, hum⟩ := getByMobile_some hfound
        obtain rfl := h.eq_of_mobile hu hr (hum.trans hrm.symm)
        exact ⟨u, (authenticate_iff s.users).mpr ⟨p, hp, hfound,
          (hmatch.secret.verify_iff p).mpr hadmits, hmatch.status.trans hs⟩, rfl⟩

/-- A request that goes on has been allowed to. -/
theorem Shows.begin (h : Shows L s a) {task : Nat} {request : Request} {rand : Option Bytes}
    {pending : Pending} (hsound : (AuthOp.begin task request fault rand).Sound)
    (hb : AuthService.begin L s.users fault rand request = .inr pending) :
    ∃ change, Announces L pending change ∧
      (∀ id secret, change = .setting id secret → ∃ r ∈ s.users, r.id = id) ∧
      Accounts.Step L a (.begin task request fault rand, none)
        (a.allow task change) := by
  have hholds : ∀ {err p ph}, AuthService.hashPassword L rand p err = .ok ph →
      ∃ salt, rand = some salt ∧ Holds L ph ⟨p, salt⟩ := by
    intro err p ph hph
    obtain ⟨salt, rfl, hhash, hne⟩ := hashPassword_ok hph
    exact ⟨salt, rfl, hsound, hhash, hne⟩
  cases request with
  | register mobile password email nickname =>
      simp only [AuthService.begin] at hb
      split at hb
      · cases hb
      · rename_i hreg
        cases hb
        rw [AuthService.Register] at hreg
        split at hreg
        · cases hreg
        · rename_i hfree
          obtain ⟨p, hp, hreg⟩ := ok_of_bind hreg
          obtain ⟨ph, hph, hreg⟩ := ok_of_bind hreg
          cases hreg
          obtain ⟨salt, rfl, hhold⟩ := hholds hph
          refine ⟨_, .create hhold rfl, ?_, .enroll hp ?_⟩
          · rintro id secret ⟨⟩
          · rintro rfl id acc hacc hm
            obtain ⟨r, hr, -, hmatch⟩ := h.exists_row hacc
            exact getByMobile_none (Option.not_isSome_iff_eq_none.mp hfree) r hr
              (hmatch.mobile.trans hm)
  | authenticate mobile password => cases hb
  | forget mobile new_password =>
      simp only [AuthService.begin] at hb
      split at hb
      · cases hb
      · rename_i hforget
        cases hb
        obtain ⟨p, hp, hforget⟩ := ok_of_bind hforget
        cases hu : UserDAO.GetByMobile L.collate s.users fault mobile with
        | none =>
            rw [hu] at hforget
            cases hforget
        | some u =>
            rw [hu] at hforget
            obtain ⟨ph, hph, hforget⟩ := ok_of_bind hforget
            cases hforget
            obtain ⟨salt, rfl, hhold⟩ := hholds hph
            obtain ⟨rfl, hmem, hm⟩ := getByMobile_some hu
            obtain ⟨acc, hacc, hmatch⟩ := h.row u hmem
            refine ⟨_, .update hhold, ?_, .reset hp hacc (hmatch.mobile.symm.trans hm)⟩
            rintro id secret ⟨⟩
            exact ⟨u, hmem, rfl⟩
  | changePassword uid old_password new_password =>
      simp only [AuthService.begin] at hb
      split at hb
      · cases hb
      · rename_i hchange
        cases hb
        rw [AuthService.ChangePassword] at hchange
        split at hchange
        · cases hchange
        · rename_i hlen
          cases hu : UserDAO.GetById s.users fault uid with
          | none =>
              rw [hu] at hchange
              cases hchange
          | some u =>
              rw [hu, AuthService.changeUser] at hchange
              split at hchange
              · cases hchange
              · rename_i hv
                obtain ⟨ph, hph, hchange⟩ := ok_of_bind hchange
                cases hchange
                obtain ⟨salt, rfl, hhold⟩ := hholds hph
                unfold UserDAO.GetById at hu
                split at hu
                · cases hu
                · rename_i hf
                  obtain rfl : u.id = uid := by simpa using List.find?_some hu
                  obtain rfl := Bool.eq_false_iff.mpr hf
                  have hmem := List.mem_of_find?_eq_some hu
                  obtain ⟨acc, hacc, hmatch⟩ := h.row u hmem
                  have hadmits := (hmatch.secret.verify_iff old_password).mp
                    (Bool.eq_true_of_not_eq_false hv)
                  refine ⟨_, .update hhold, ?_, .change hacc hadmits (Nat.not_lt.mp hlen)⟩
                  rintro id secret ⟨⟩
                  exact ⟨u, hmem, rfl⟩

/-! ## Writes -/

theorem clash_eq_false {collate : Bytes → κ} (h : UserDAO.clash collate u r = false) :
    r.id ≠ u.id ∧ collate r.mobile ≠ collate u.mobile ∧
      (u.email.isEmpty = false → r.email.isEmpty = false → collate r.email ≠ collate u.email) := by
  simp only [UserDAO.clash, Bool.or_eq_false_iff, beq_eq_false_iff_ne] at h
  obtain ⟨⟨hid, hm⟩, he⟩ := h
  refine ⟨hid, hm, ?_⟩
  intro hu hr heq
  simp only [hu, hr, heq, beq_self_eq_true, Bool.not_false, Bool.and_self] at he
  cases he

theorem emailKey_ne (h : UserDAO.clash L.collate u r = false) {k : κ}
    (hk : emailKey L u.email = some k) : emailKey L r.email ≠ some k := by
  intro hr
  unfold emailKey at hk hr
  split at hk
  · cases hk
  · rename_i hu
    split at hr
    · cases hr
    · rename_i hre
      cases hk
      exact (clash_eq_false h).2.2 (Bool.eq_false_iff.mpr hu) (Bool.eq_false_iff.mpr hre)
        (Option.some.inj hr)

/-- A new row under keys that no other row has. -/
theorem Shows.created (h : Shows L s a) (hmatch : Matches L u acc)
    (hfree : ∀ r ∈ s.users, UserDAO.clash L.collate u r = false) :
    Shows L { s with users := s.users ++ [u] } (a.set u.id acc) := by
  refine ⟨?_, ?_, ?_, ?_, h.pending, ?_⟩
  · rw [List.map_append, List.nodup_append]
    refine ⟨h.ids, List.nodup_singleton _, ?_⟩
    rintro i hi j hj rfl
    obtain ⟨r, hr, rfl⟩ := List.mem_map.mp hi
    exact (clash_eq_false (hfree r hr)).1 (List.mem_singleton.mp hj)
  · rw [List.map_append, List.nodup_append]
    refine ⟨h.mobiles, List.nodup_singleton _, ?_⟩
    rintro i hi j hj rfl
    obtain ⟨r, hr, rfl⟩ := List.mem_map.mp hi
    exact (clash_eq_false (hfree r hr)).2.1 (List.mem_singleton.mp hj)
  · intro r hr
    rcases List.mem_append.mp hr with hr | hr
    · obtain ⟨acc₀, hacc₀, hm⟩ := h.row r hr
      have hne : r.id ≠ u.id := (clash_eq_false (hfree r hr)).1
      exact ⟨acc₀, (Function.update_of_ne hne ..).trans hacc₀, hm⟩
    · obtain rfl := List.mem_singleton.mp hr
      exact ⟨acc, Function.update_self .., hmatch⟩
  · intro i acc₀ hacc₀
    by_cases hi : i = u.id
    · exact ⟨u, List.mem_append_right _ (List.mem_singleton_self u), hi.symm⟩
    · obtain ⟨r, hr, hid⟩ := h.account i acc₀ ((Function.update_of_ne hi ..).symm.trans hacc₀)
      exact ⟨r, List.mem_append_left _ hr, hid⟩
  · intro t i secret hset
    obtain ⟨r, hr, hid⟩ := h.stands t i secret hset
    exact ⟨r, List.mem_append_left _ hr, hid⟩

/-- The write of a task is a step of the accounts. -/
theorem Shows.finish (h : Shows L s a) {task : Nat} {answer : Answer} {pending : Pending}
    (hp : s.pending task = some pending) :
    ∃ a', Accounts.Step L a
        (.finish task answer, some (AuthService.finish L s.users answer pending).1) a' ∧
      Shows L ⟨(AuthService.finish L s.users answer pending).2,
        Function.update s.pending task none⟩ a' := by
  obtain ⟨change, hc, hann⟩ := h.announced hp
  have hfailed : ∀ err, ∃ a', Accounts.Step L a (.finish task answer, some (.error err)) a' ∧
      Shows L ⟨s.users, Function.update s.pending task none⟩ a' := fun err =>
    ⟨_, .failed (by rw [hc]; rfl), h.settle task⟩
  cases hann with
  | @create u secret hhold hs =>
      cases hfault : answer.fault with
      | some err =>
          simpa only [AuthService.finish, UserDAO.Create, hfault] using hfailed _
      | none =>
          by_cases hany : s.users.any (UserDAO.clash L.collate { u with id := answer.id })
          · simpa only [AuthService.finish, UserDAO.Create, hfault, if_pos hany] using hfailed _
          · have hfree : ∀ r ∈ s.users,
                UserDAO.clash L.collate { u with id := answer.id } r = false := fun r hr =>
              Bool.eq_false_iff.mpr fun hclash => hany (List.any_eq_true.mpr ⟨r, hr, hclash⟩)
            have hmatch : Matches L { u with id := answer.id }
                ⟨L.collate u.mobile, emailKey L u.email, secret, 1⟩ := ⟨rfl, rfl, hs, hhold⟩
            simp only [AuthService.finish, UserDAO.Create, hfault, if_neg hany]
            refine ⟨_, .opened hc rfl ?_ ?_ ?_, (h.created hmatch hfree).settle task⟩
            · cases hfind : a.find answer.id with
              | none => rfl
              | some acc =>
                  obtain ⟨r, hr, hid, -⟩ := h.exists_row hfind
                  exact absurd hid (clash_eq_false (hfree r hr)).1
            · intro i acc hacc
              obtain ⟨r, hr, -, hm⟩ := h.exists_row hacc
              rw [← hm.mobile]
              exact (clash_eq_false (hfree r hr)).2.1
            · intro i acc k hacc hk
              obtain ⟨r, hr, -, hm⟩ := h.exists_row hacc
              rw [← hm.email]
              exact emailKey_ne (hfree r hr) hk
  | @update u ph failed secret hhold =>
      cases hfault : answer.fault with
      | some err =>
          simpa only [AuthService.finish, UserDAO.UpdatePassword, UserDAO.update, hfault]
            using hfailed _
      | none =>
          obtain ⟨r, hr, hid⟩ := h.stands task u.id secret hc
          obtain ⟨acc, hacc, -⟩ := h.row r hr
          rw [hid] at hacc
          have hset : ∀ r, Matches L r acc →
              Matches L { r with password_hash := ph } { acc with secret := secret } := fun r hm =>
            ⟨hm.mobile, hm.email, hm.status, hhold⟩
          simp only [AuthService.finish, UserDAO.UpdatePassword, UserDAO.update, hfault]
          exact ⟨_, .saved hc rfl hacc,
            (h.updated (f := fun r => { r with password_hash := ph }) (fun _ => rfl) (fun _ => rfl)
              hacc hset).settle task⟩

omit [DecidableEq κ] in
/-- A block of an account is a step of the accounts. -/
theorem Shows.updateStatus (h : Shows L s a) (id : UInt64) (status : Int32)
    (fault : Option String) :
    ∃ a', Accounts.Step L a (.updateStatus id status fault, none) a' ∧
      Shows L { s with users := (UserDAO.UpdateStatus s.users fault id status).2 } a' := by
  cases fault with
  | some err => exact ⟨a, .unchanged (by rintro ⟨⟩), h⟩
  | none =>
      cases hacc : a.find id with
      | some acc =>
          exact ⟨_, .status hacc, h.updated (f := fun r => { r with status := status })
            (fun _ => rfl) (fun _ => rfl) hacc fun r hm => ⟨hm.mobile, hm.email, rfl, hm.secret⟩⟩
      | none =>
          have hsame : (UserDAO.UpdateStatus s.users none id status).2 = s.users := by
            refine (List.map_congr_left fun r hr => ?_).trans (List.map_id _)
            refine if_neg ?_
            rintro rfl
            obtain ⟨acc, hrow, -⟩ := h.row r hr
            rw [hacc] at hrow
            cases hrow
          rw [hsame]
          exact ⟨a, .unchanged fun _ => hacc, h⟩

theorem Shows.exec (h : Shows L s a) {op : AuthOp} {r : Option AuthResult} {s' : Service}
    (hsound : op.Sound) (hexec : s.exec L op = some (r, s')) :
    ∃ a', Accounts.Step L a (op, r) a' ∧ Shows L s' a' := by
  cases op with
  | begin task request fault rand =>
      simp only [Service.exec] at hexec
      split at hexec
      · cases hexec
      · split at hexec
        · rename_i r' hbegin
          cases hexec
          refine ⟨a, ?_, h⟩
          cases request with
          | authenticate mobile password =>
              obtain rfl := Sum.inl.inj hbegin
              exact .login h.login.1 h.login.2
          | register mobile password email nickname =>
              simp only [AuthService.begin] at hbegin
              split at hbegin <;> cases hbegin
              exact .refused (by rintro _ _ ⟨⟩)
          | forget mobile new_password =>
              simp only [AuthService.begin] at hbegin
              split at hbegin <;> cases hbegin
              exact .refused (by rintro _ _ ⟨⟩)
          | changePassword uid old_password new_password =>
              simp only [AuthService.begin] at hbegin
              split at hbegin <;> cases hbegin
              exact .refused (by rintro _ _ ⟨⟩)
        · rename_i pending hbegin
          cases hexec
          obtain ⟨change, hann, hstands, hstep⟩ := h.begin hsound hbegin
          exact ⟨_, hstep, h.allow hann hstands⟩
  | finish task answer =>
      simp only [Service.exec] at hexec
      split at hexec
      · cases hexec
      · rename_i pending hp
        cases hexec
        exact h.finish hp
  | updateStatus id status fault =>
      cases hexec
      exact h.updateStatus id status fault

/-- A cipher that leaves three bytes as they are. -/
def plain : Libraries Bytes := ⟨repeating, true, some ⟨3, some⟩, fun text => text⟩

end CIM.app
