import CIM.Lib.System
import CIM.Util.Base64
import CIM.Util.Password
import Mathlib.Logic.Function.Basic

/-!
# Accounts and their passwords

`AuthService` over the table of the users. A request reads the table once, and where it changes an
account it writes to the table in a second step, behind whatever other requests do in between. The
database and the cipher are not part of the repository.
-/
namespace CIM.dao

open Password (Bytes)

/-- A row of the table, too; an empty email is stored as `NULL`. -/
structure User where
  id : UInt64 := 0
  mobile : Bytes := []
  email : Bytes := []
  nickname : Bytes := []
  password_hash : Bytes := []
  avatar : Bytes := []
  motto : Bytes := []
  gender : Int32 := 0
  is_robot : Int32 := 0
  is_qiye : Int32 := 0
  status : Int32 := 1

/-- What the database does with a statement: it fails with a text, or it takes the row under the
next `id`, or under a key that is there already it fails with the text `duplicate`. -/
structure Answer where
  fault : Option String
  id : UInt64
  duplicate : String

namespace UserDAO

variable {κ : Type} [DecidableEq κ] (collate : Bytes → κ)

/-- The primary key and the two unique keys; rows without an email do not meet in it. -/
def clash (u r : User) : Bool :=
  r.id == u.id || collate r.mobile == collate u.mobile ||
    (!u.email.isEmpty && !r.email.isEmpty && collate r.email == collate u.email)

def Create (users : List User) (a : Answer) (u : User) : Except String UInt64 × List User :=
  match a.fault with
  | some err => (.error err, users)
  | none =>
      let u := { u with id := a.id }
      if users.any (clash collate u) then (.error a.duplicate, users) else (.ok a.id, users ++ [u])

/-- Without a connection nothing is found. -/
def GetByMobile (users : List User) (fault : Bool) (mobile : Bytes) : Option User :=
  if fault then none else users.find? fun r => decide (collate r.mobile = collate mobile)

def GetById (users : List User) (fault : Bool) (id : UInt64) : Option User :=
  if fault then none else users.find? fun r => decide (r.id = id)

/-- An `UPDATE` of the row of the id; the text where it fails. -/
def update (users : List User) (fault : Option String) (id : UInt64) (f : User → User) :
    Option String × List User :=
  match fault with
  | some err => (some err, users)
  | none => (none, users.map fun r => if r.id = id then f r else r)

def UpdatePassword (users : List User) (fault : Option String) (id : UInt64)
    (new_password_hash : Bytes) : Option String × List User :=
  update users fault id fun r => { r with password_hash := new_password_hash }

def UpdateStatus (users : List User) (fault : Option String) (id : UInt64) (status : Int32) :
    Option String × List User :=
  update users fault id fun r => { r with status := status }

end UserDAO

end CIM.dao

namespace CIM.app

open Transition Password dao HashUtil

/-- The private key; none where the text cannot be decrypted. -/
structure RSACipher where
  priRSASize : Int
  privateDecrypt : Bytes → Option Bytes

/-- `CryptoModule::PrivateDecrypt`. -/
def RSACipher.PrivateDecrypt (rsa : RSACipher) (ciphertext : Bytes) : Option Bytes :=
  if rsa.priRSASize ≤ 0 then none
  else if int32 ciphertext.length ≠ rsa.priRSASize then none
  else rsa.privateDecrypt ciphertext

/-- The functions of other libraries; `rsa` is none where the module has no keys. `collate` is
equal for texts that a key of the table takes as equal. -/
structure Libraries (κ : Type) where
  pbkdf2 : Pbkdf2
  zero_x : Bool
  rsa : Option RSACipher
  collate : Bytes → κ

abbrev AuthResult : Type := Except String User

inductive Request
  | register (mobile password email nickname : Bytes)
  | authenticate (mobile password : Bytes)
  | forget (mobile new_password : Bytes)
  | changePassword (uid : UInt64) (old_password new_password : Bytes)

/-- What a request is about to write. An update fails with its own text if the database has
none. -/
inductive Pending
  | create (u : User)
  | update (uid : UInt64) (ph : Bytes) (u : User) (failed : String)

/-- The iterations of `Password::Hash`. -/
def iterations : UInt32 := 120000

namespace AuthService

variable {κ : Type} [DecidableEq κ] (L : Libraries κ)

/-- Base64 and the private key. -/
def decodePassword (password : Bytes) : Except String Bytes :=
  let cipher_bin := base64decode password
  if cipher_bin.isEmpty then .error "密码解码失败！"
  else
    match L.rsa with
    | none => .error "密钥模块未加载！"
    | some rsa =>
        match rsa.PrivateDecrypt cipher_bin with
        | none => .error "密码解密失败！"
        | some decrypted_pwd => .ok decrypted_pwd

/-- `Password::Hash`; an empty one is an error. -/
def hashPassword (rand : Option Bytes) (password : Bytes) (err : String) : Except String Bytes :=
  let ph := Hash L.pbkdf2 rand password iterations
  if ph.isEmpty then .error err else .ok ph

/-- `Register` up to the `INSERT`. -/
def Register (users : List User) (fault : Bool) (rand : Option Bytes)
    (mobile password email nickname : Bytes) : Except String Pending :=
  if (UserDAO.GetByMobile L.collate users fault mobile).isSome then .error "手机号已被注册！"
  else do
    let decrypted_pwd ← decodePassword L password
    let ph ← hashPassword L rand decrypted_pwd "密码哈希生成失败！"
    pure (.create { mobile := mobile, email := email, password_hash := ph, nickname := nickname })

/-- Of the user that was found, if any. -/
def verifyUser (decrypted_pwd : Bytes) : Option User → AuthResult
  | none => .error "账号或密码错误！"
  | some u =>
      if Verify L.pbkdf2 L.zero_x decrypted_pwd u.password_hash = false then
        .error "账号或密码错误！"
      else if u.status ≠ 1 then .error "账户被禁用!"
      else .ok u

def Authenticate (users : List User) (fault : Bool) (mobile password : Bytes) : AuthResult := do
  let decrypted_pwd ← decodePassword L password
  verifyUser L decrypted_pwd (UserDAO.GetByMobile L.collate users fault mobile)

def resetUser (rand : Option Bytes) (decrypted_pwd : Bytes) :
    Option User → Except String Pending
  | none => .error "手机号不存在！"
  | some u => do
      let ph ← hashPassword L rand decrypted_pwd "密码哈希生成失败！"
      pure (.update u.id ph u "更新密码失败！")

/-- `Forget` up to the `UPDATE`. -/
def Forget (users : List User) (fault : Bool) (rand : Option Bytes)
    (mobile new_password : Bytes) : Except String Pending := do
  let decrypted_pwd ← decodePassword L new_password
  resetUser L rand decrypted_pwd (UserDAO.GetByMobile L.collate users fault mobile)

def changeUser (rand : Option Bytes) (uid : UInt64) (old_password new_password : Bytes) :
    Option User → Except String Pending
  | none => .error "user not found"
  | some u =>
      if Verify L.pbkdf2 L.zero_x old_password u.password_hash = false then
        .error "old_password mismatch"
      else do
        let ph ← hashPassword L rand new_password "hash failed"
        pure (.update uid ph u "update failed")

/-- `ChangePassword` up to the `UPDATE`. -/
def ChangePassword (users : List User) (fault : Bool) (rand : Option Bytes) (uid : UInt64)
    (old_password new_password : Bytes) : Except String Pending :=
  if new_password.length < 6 then .error "new_password too short"
  else changeUser L rand uid old_password new_password (UserDAO.GetById users fault uid)

/-- The first half of a request: it is answered, or it goes on to its write. -/
def begin (users : List User) (fault : Bool) (rand : Option Bytes) :
    Request → AuthResult ⊕ Pending
  | .register mobile password email nickname =>
      match Register L users fault rand mobile password email nickname with
      | .error err => .inl (.error err)
      | .ok p => .inr p
  | .authenticate mobile password => .inl (Authenticate L users fault mobile password)
  | .forget mobile new_password =>
      match Forget L users fault rand mobile new_password with
      | .error err => .inl (.error err)
      | .ok p => .inr p
  | .changePassword uid old_password new_password =>
      match ChangePassword L users fault rand uid old_password new_password with
      | .error err => .inl (.error err)
      | .ok p => .inr p

/-- The write and the answer. -/
def finish (users : List User) (a : Answer) : Pending → AuthResult × List User
  | .create u =>
      match UserDAO.Create L.collate users a u with
      | (.ok new_id, users) => (.ok { u with id := new_id }, users)
      | (.error err, users) => (.error (if err.isEmpty then "创建用户失败！" else err), users)
  | .update uid ph u failed =>
      match UserDAO.UpdatePassword users a.fault uid ph with
      | (none, users) => (.ok u, users)
      | (some err, users) => (.error (if err.isEmpty then failed else err), users)

end AuthService

/-- The table, and what each task is about to write. -/
structure Service where
  users : List User
  pending : Nat → Option Pending

inductive AuthOp
  | begin (task : Nat) (request : Request) (fault : Bool) (rand : Option Bytes)
  | finish (task : Nat) (answer : Answer)
  | updateStatus (id : UInt64) (status : Int32) (fault : Option String)

/-- `RAND_bytes` fills the salt. -/
def AuthOp.Sound : AuthOp → Prop
  | .begin _ _ _ (some salt) => salt.length = 16
  | _ => True

namespace Service

variable {κ : Type} [DecidableEq κ] (L : Libraries κ)

/-- The answer, where the request has one by now. -/
def exec (s : Service) : AuthOp → Option (Option AuthResult × Service)
  | .begin task request fault rand =>
      if (s.pending task).isSome then none
      else
        match AuthService.begin L s.users fault rand request with
        | .inl r => some (some r, s)
        | .inr p => some (none, { s with pending := Function.update s.pending task (some p) })
  | .finish task answer =>
      match s.pending task with
      | none => none
      | some p =>
          let r := AuthService.finish L s.users answer p
          some (some r.1, ⟨r.2, Function.update s.pending task none⟩)
  | .updateStatus id status fault =>
      some (none, { s with users := (UserDAO.UpdateStatus s.users fault id status).2 })

end Service

end CIM.app
