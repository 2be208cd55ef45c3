/-! The numbered values that typed commands take and answer. -/

namespace ModemLink.At

inductive Echo
  | off
  | on
  deriving DecidableEq

def Echo.toNat : Echo → Nat
  | off => 0
  | on => 1

def Echo.ofNat? : Nat → Option Echo
  | 0 => some off
  | 1 => some on
  | _ => none

inductive Functionality
  | minimum
  | full
  | airplaneMode
  deriving DecidableEq

def Functionality.toNat : Functionality → Nat
  | minimum => 0
  | full => 1
  | airplaneMode => 4

def Functionality.ofNat? : Nat → Option Functionality
  | 0 => some minimum
  | 1 => some full
  | 4 => some airplaneMode
  | _ => none

inductive ResetMode
  | dontReset
  | reset
  deriving DecidableEq

def ResetMode.toNat : ResetMode → Nat
  | dontReset => 0
  | reset => 1

def ResetMode.ofNat? : Nat → Option ResetMode
  | 0 => some dontReset
  | 1 => some reset
  | _ => none

inductive RegistrationReport
  | disabled
  | enabled
  | verbose
  | extended
  | psm
  | psmExtended
  deriving DecidableEq

def RegistrationReport.toNat : RegistrationReport → Nat
  | disabled => 0
  | enabled => 1
  | verbose => 2
  | extended => 3
  | psm => 4
  | psmExtended => 5

def RegistrationReport.ofNat? : Nat → Option RegistrationReport
  | 0 => some disabled
  | 1 => some enabled
  | 2 => some verbose
  | 3 => some extended
  | 4 => some psm
  | 5 => some psmExtended
  | _ => none

inductive RegistrationStat
  | notRegistered
  | registered
  | searching
  | registrationDenied
  | unknown
  | registeredRoaming
  | emergencyOnly
  deriving DecidableEq

namespace RegistrationStat

def toNat : RegistrationStat → Nat
  | notRegistered => 0
  | registered => 1
  | searching => 2
  | registrationDenied => 3
  | unknown => 4
  | registeredRoaming => 5
  | emergencyOnly => 8

def ofNat? : Nat → Option RegistrationStat
  | 0 => some notRegistered
  | 1 => some registered
  | 2 => some searching
  | 3 => some registrationDenied
  | 4 => some unknown
  | 5 => some registeredRoaming
  | 8 => some emergencyOnly
  | _ => none

def isRegistered (s : RegistrationStat) : Bool := s == registered || s == registeredRoaming

end RegistrationStat

@[simp] theorem Echo.ofNat?_toNat (e : Echo) : ofNat? e.toNat = some e := by cases e <;> rfl

@[simp] theorem Functionality.ofNat?_toNat (f : Functionality) : ofNat? f.toNat = some f := by
  cases f <;> rfl

@[simp] theorem ResetMode.ofNat?_toNat (r : ResetMode) : ofNat? r.toNat = some r := by
  cases r <;> rfl

@[simp] theorem RegistrationReport.ofNat?_toNat (r : RegistrationReport) :
    ofNat? r.toNat = some r := by cases r <;> rfl

@[simp] theorem RegistrationStat.ofNat?_toNat (s : RegistrationStat) :
    ofNat? s.toNat = some s := by cases s <;> rfl

end ModemLink.At
