import LayeredTree.Path

/-!
What the operating system answers when it refuses a request, with its number and wording. Here are
the refusals that follow from the entries of a disk: a want of permission or of room, or a device
that fails, has none of its own.
-/

set_option autoImplicit false

namespace LayeredTree

inductive SystemFault
  | noEntry
  | noDevice
  | busy
  | alreadyExists
  | notDirectory
  | isDirectory
  | invalid
  | nameTooLong
  | notEmpty
  | tooManyLinks
deriving Repr, DecidableEq

namespace SystemFault

def number : SystemFault → Nat
  | noEntry => 2
  | noDevice => 6
  | busy => 16
  | alreadyExists => 17
  | notDirectory => 20
  | isDirectory => 21
  | invalid => 22
  | nameTooLong => 36
  | notEmpty => 39
  | tooManyLinks => 40

def description : SystemFault → String
  | noEntry => "No such file or directory"
  | noDevice => "No such device or address"
  | busy => "Device or resource busy"
  | alreadyExists => "File exists"
  | notDirectory => "Not a directory"
  | isDirectory => "Is a directory"
  | invalid => "Invalid argument"
  | nameTooLong => "File name too long"
  | notEmpty => "Directory not empty"
  | tooManyLinks => "Too many levels of symbolic links"

end SystemFault

inductive IoFault
  | system (fault : SystemFault)
  /-- A path with a zero byte never reaches the operating system. -/
  | zeroByte
  /-- Only a regular file can be copied. -/
  | notRegular
  /-- A fault met while making a directory with a fresh name. -/
  | atPath (fault : IoFault) (path : Path)
deriving Repr, DecidableEq

namespace IoFault

def message : IoFault → String
  | system fault => s!"{fault.description} (os error {fault.number})"
  | zeroByte => "file name contained an unexpected NUL byte"
  | notRegular => "the source path is neither a regular file nor a symlink to a regular file"
  | atPath fault path => s!"{fault.message} at path {path.quoted}"

def isAbsence : IoFault → Bool
  | system .noEntry => true
  | atPath fault _ => fault.isAbsence
  | _ => false

end IoFault
end LayeredTree
