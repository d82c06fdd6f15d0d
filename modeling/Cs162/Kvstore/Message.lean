import Mathlib.Tactic.Common

namespace Cs162.Kvstore

abbrev JString := List UInt16

def hashCode (s : JString) : BitVec 32 :=
  s.foldl (fun h c => 31 * h + c.toBitVec.zeroExtend 32) 0

/-- `Math.abs` on `int`; the least value is its own image. -/
def mathAbs (n : BitVec 32) : BitVec 32 := if n.toInt < 0 then -n else n

inductive MsgType
  | getReq | putReq | delReq | resp | ready | register | abort | commit | ack
  | other (name : JString)
  deriving DecidableEq, Repr

def MsgType.isResp : MsgType → Bool
  | .resp => true
  | .other [r, e, s, p] => r ∈ [0x52, 0x72] && e ∈ [0x45, 0x65] && s ∈ [0x53, 0x73, 0x17F] && p ∈ [0x50, 0x70]
  | _ => false

structure KVMessage where
  msgType : Option MsgType
  key : Option JString := none
  value : Option JString := none
  message : Option String := none
  deriving DecidableEq, Repr

def KVMessage.ofType (t : MsgType) (message : Option String := none) : KVMessage :=
  { msgType := some t, message := message }

def errorCouldNotReceiveData : String := "Network Error: Could not receive data"
def errorCouldNotSendData : String := "Network Error: Could not send data"
def errorCouldNotCreateSocket : String := "Network Error: Could not create socket"
def errorCouldNotConnect : String := "Network Error: Could not connect"
def errorSocketTimeout : String := "Network Error: Socket timeout"
def errorParser : String := "XML Error: Parser Error"
def errorInvalidFormat : String := "XML Error: Message format incorrect"
def errorNoSuchKey : String := "Data Error: Key does not exist"
def errorOversizedKey : String := "Data Error: Oversized key"
def errorOversizedValue : String := "Data Error: Oversized value"
def errorInvalidKey : String := "Data Error: Null or empty key"
def errorInvalidValue : String := "Data Error: Null or empty value"
def errorInvalidMessageType : String := "Data Error: Invalid Message Type"

inductive Throwable
  | kvException (kvm : KVMessage)
  | nullPointerException
  | indexOutOfBoundsException
  | illegalArgumentException
  | classCastException
  | noSuchElementException
  deriving DecidableEq, Repr

def Throwable.ofError (errorMessage : String) : Throwable :=
  .kvException (KVMessage.ofType .resp (some errorMessage))

abbrev JavaM (σ α : Type) := EStateM Throwable σ α

namespace JavaM
variable {σ α : Type} (s : σ)

theorem get_apply : (get : JavaM σ σ) s = .ok s s := rfl
theorem throw_apply (e : Throwable) : (throw e : JavaM σ α) s = .error e s := rfl

end JavaM

def finalState {σ α : Type} : EStateM.Result Throwable σ α → σ
  | .ok _ s | .error _ s => s

section FinalState
variable {σ α : Type} (s : σ)

@[simp] theorem finalState_ok (a : α) : finalState (.ok a s) = s := rfl
@[simp] theorem finalState_error (e : Throwable) :
    finalState (.error e s : EStateM.Result Throwable σ α) = s := rfl
@[simp] theorem finalState_pure (a : α) : finalState ((pure a : JavaM σ α) s) = s := rfl
@[simp] theorem finalState_throw (e : Throwable) : finalState ((throw e : JavaM σ α) s) = s := rfl

end FinalState

end Cs162.Kvstore
