/-
Where the boot file comes from: `dhcp_get_option_ptr` of `lwip/core/dhcp.c` and what is kept there of
the options 66 and 67, the names that `network.c` makes of them, and the beginning of `boot_tftp` and
`boot_tftp_url` of `tftp.c`.

An option is read from where it was found on, wherever the message ends.  A text is the bytes of a
block up to a zero, and `strncpy` puts none behind what it copies.
-/
import Xell.Inet
import Xell.Tftp

namespace Xell.Netboot

open Vsprintf (chr text Arg)

/-! ### Options -/

def dhcpOptionOverload : UInt8 := 52

def dhcpOptionTftpServername : UInt8 := 66

def dhcpOptionBootfile : UInt8 := 67

def dhcpOptionEnd : UInt8 := 255

def dhcpSnameLen : Nat := 64

def dhcpFileLen : Nat := 128

/-- `options_in`, and the field `sname` of the message with `file` behind it. -/
structure Reply where
  optionsIn : Mem UInt8
  optionsInLen : Nat
  sname : Mem UInt8

/-- The loop over the options: where the one that is asked for is, and `overload`. -/
def optionsLoop (optionType : UInt8) (options : Mem UInt8) (len offset : Nat) (overload : UInt8) :
    Option Nat × UInt8 :=
  if _h : offset < len then
    if options offset = dhcpOptionEnd then (none, overload)
    else if options offset = dhcpOptionOverload then
      optionsLoop optionType options len (offset + 3) (options (offset + 2))
    else if options offset = optionType then (some offset, overload)
    else optionsLoop optionType options len (offset + 1 + (1 + (options (offset + 1)).toNat)) overload
  else (none, overload)
termination_by len - offset

/-- The loop over a field that is used for options. -/
def fieldLoop (optionType : UInt8) (options : Mem UInt8) (len offset : Nat) : Option Nat :=
  if _h : offset < len then
    if options offset = dhcpOptionEnd then none
    else if options offset = optionType then some offset
    else fieldLoop optionType options len (offset + 1 + (1 + (options (offset + 1)).toNat))
  else none
termination_by len - offset

/-- `dhcp_get_option_ptr`: the bytes from the option on. -/
def dhcpGetOptionPtr (r : Reply) (optionType : UInt8) : Option (Mem UInt8) :=
  match optionsLoop optionType r.optionsIn r.optionsInLen 0 0 with
  | (some offset, _) => some fun k => r.optionsIn (offset + k)
  | (none, overload) =>
      if overload = 0 then none
      else
        let field : Nat × Nat :=
          if overload = 1 then (dhcpSnameLen, dhcpFileLen)
          else if overload = 2 then (0, dhcpSnameLen)
          else (0, dhcpFileLen + dhcpSnameLen)
        let options : Mem UInt8 := fun k => r.sname (field.1 + k)
        (fieldLoop optionType options field.2 0).map fun offset => fun k => options (offset + k)

/-! ### Names -/

/-- The loop of `strncpy`, at byte `i`. -/
def strncpyLoop (src : Mem UInt8) : Nat → Nat → Mem UInt8 → Mem UInt8
  | 0, _, dest => dest
  | count + 1, i, dest =>
      let dest := Function.update dest i (src i)
      if src i = 0 then dest else strncpyLoop src count (i + 1) dest

/-- The text in a block of `n` bytes, if it ends there. -/
def cstring (block : Mem UInt8) (n : Nat) : Option (List UInt8) :=
  if 0 ∈ block.slice 0 n then some ((block.slice 0 n).takeWhile (· ≠ 0)) else none

/-- An option is copied into the block that `mem_malloc` gave. -/
def copyOption (option block : Mem UInt8) : Option (List UInt8) :=
  let len := (option 1).toNat
  cstring (strncpyLoop (fun k => option (2 + k)) len 0 block) (len + 1)

def addressFormat : List UInt8 := text "%u.%u.%u.%u"

/-- `boot_server_name`: an address, or a name. -/
def bootServerName (option block : Mem UInt8) : Option (List UInt8) :=
  if option 1 = 4 then
    Vsprintf.sprintf addressFormat
      [.word (BitVec.ofNat 64 (option 2).toNat), .word (BitVec.ofNat 64 (option 3).toNat),
        .word (BitVec.ofNat 64 (option 4).toNat), .word (BitVec.ofNat 64 (option 5).toNat)]
  else copyOption option block

/-- `network_boot_server_name`, once there was a reply. -/
def networkBootServerName (r : Reply) (block : Mem UInt8) : Option (List UInt8) :=
  match dhcpGetOptionPtr r dhcpOptionTftpServername with
  | some option => bootServerName option block
  | none => some (text "10.0.120.78")

/-- `network_boot_file_name`. -/
def networkBootFileName (r : Reply) (block : Mem UInt8) : Option (List UInt8) :=
  match dhcpGetOptionPtr r dhcpOptionBootfile with
  | some option => copyOption option block
  | none => some (text "/tftpboot/xenon")

/-! ### Booting -/

/-- `server_address` in `boot_tftp`. -/
def serverAddress (serverAddr : List UInt8) : UInt32 :=
  if serverAddr = [] then 0 else (Inet.inetAton serverAddr).getD 0

/-- `boot_tftp`, with its arguments as they are given. -/
def bootTftp (serverAddr tftpBootfile : List UInt8) (pcb : Bool) (its : List Tftp.Iteration)
    (s : Tftp.Statics) : Option Tftp.TftpBoot :=
  Tftp.bootTftp (serverAddress serverAddr) tftpBootfile pcb its s

/-- What `boot_tftp_url` cuts a URL into; there is room for 19 characters of the address. -/
def cutUrl (url : List UInt8) : List UInt8 × List UInt8 :=
  if chr ':' ∈ url then
    ((url.takeWhile (· ≠ chr ':')).take 19, (url.dropWhile (· ≠ chr ':')).tail)
  else ([], url)

def bootTftpUrl (url : List UInt8) (pcb : Bool) (its : List Tftp.Iteration) (s : Tftp.Statics) :
    Option Tftp.TftpBoot :=
  bootTftp (cutUrl url).1 (cutUrl url).2 pcb its s

end Xell.Netboot
