import Mathlib

/-!
# Errors

`VlmError` of `error.rs`, with the text that each error displays, and the errors of the official SDK.
`OfficialError::new` passes the message through the credential redactor; every message modelled
here is a fixed text of the source without credentials, so the model keeps the text itself.
-/

set_option autoImplicit false

namespace Mineru

inductive VlmError where
  | unsupported (message : String)
  | invalidConfig (message : String)
  | invalidHeader (message : String)
  | invalidImageInput (message : String)
  | invalidInput (message : String)
  | pdf (message : String)
  | redirect (message : String)
  | transport (operation message : String)
  | http (operation : String) (status : Nat) (body : String)
  | timeout (operation : String)
  | protocol (operation message : String)
  | limitExceeded (resource : String) (limit actual : Nat)
  | io (operation message : String)
  deriving DecidableEq, Repr

/-- `Display`. -/
def VlmError.display : VlmError → String
  | unsupported message => "unsupported: " ++ message
  | invalidConfig message => "invalid VLM configuration: " ++ message
  | invalidHeader message => "invalid VLM header: " ++ message
  | invalidImageInput message => "invalid VLM image input: " ++ message
  | invalidInput message => "invalid input: " ++ message
  | pdf message => "PDF error: " ++ message
  | redirect message => "redirect rejected: " ++ message
  | transport operation message => "transport error during " ++ operation ++ ": " ++ message
  | http operation status body =>
    "HTTP " ++ toString status ++ " during " ++ operation ++ ": " ++ body
  | timeout operation => "timeout during " ++ operation
  | protocol operation message => "protocol error during " ++ operation ++ ": " ++ message
  | limitExceeded resource limit actual =>
    "limit exceeded for " ++ resource ++ ": " ++ toString actual ++ " > " ++ toString limit
  | io operation message => "I/O error during " ++ operation ++ ": " ++ message

namespace Official

inductive OfficialErrorKind where
  | invalidOptions
  | invalidInput
  | unsupportedOperation
  | limitExceeded
  | runtimeUnavailable
  | upstream
  | deadline
  | cancelled
  | transport
  deriving DecidableEq, Repr

structure OfficialError where
  kind : OfficialErrorKind
  message : String
  deriving DecidableEq, Repr

end Official

end Mineru
