import Ipq4019.Lib.CString
import Ipq4019.Lib.Interleave

/-!
# The network boot: the payload's code

`netboot` and `netboot_entry` of the patched `netboot.c`, as programs over what they call: the DHCP
and TFTP clients, the MAC address of the card, the boot parameters in flash, and `boot`.  What these
answer is not determined.  The command line is the buffer `cmd_line`, passed on from step to step; an
access outside of it ends the program.  The console output is left out, with the interactive console
of `CONFIG_CLI`.
-/

namespace Ipq4019.Netboot.Driver

open Ipq4019.Lib.Interleave Ipq4019.Lib.Interleave.Prog Ipq4019.Lib.CString

/-! ### What the network hands out -/

/-- `uip_ipaddr_t` -/
structure IpAddr where
  ipaddr1 : UInt8
  ipaddr2 : UInt8
  ipaddr3 : UInt8
  ipaddr4 : UInt8
  deriving DecidableEq

/-- What `dhcp_request` stores when it succeeds. -/
structure Lease where
  nextIp : IpAddr
  serverIp : IpAddr
  dhcpBootfile : List UInt8
  deriving DecidableEq

/-- What `tftp_read` does with room for `max` bytes.  The bytes of a transfer that fails have been
stored too. -/
structure Transfer (max : ℕ) where
  failed : Bool
  data : List UInt8
  fits : data.length ≤ max

/-- What `netboot_params_read` leaves, `stored` in the buffer of `size` bytes.  The last byte of the
buffer stays 0. -/
structure Params (size : ℕ) where
  tftpIp : Option IpAddr
  bootfile : Option (List UInt8)
  argsfile : Option (List UInt8)
  stored : List UInt8
  fits : stored.length ≤ size - 1

inductive Dest
  | payload
  | cmdLine
  deriving DecidableEq

/-! ### The calls -/

inductive NetOp
  | runInitFuncs
  | flagFetchOprom
  | vbnvWriteOprom
  | coldReboot
  | netbootParamsRead (size : ℕ)
  | netWaitForLink
  | uipInit
  | netGetMac
  | uipSetethaddr (mac : List UInt8)
  | dhcpRequest
  | dhcpRelease (serverIp : IpAddr)
  | tftpRead (dst : Dest) (ip : IpAddr) (file : List UInt8) (max : ℕ)
  | boot (cmdLine : List UInt8)
  | halt

/-- What each of them returns; of those with a status, whether it is an error. -/
def NetOp.Res : NetOp → Type
  | .runInitFuncs => Bool
  | .flagFetchOprom => Bool
  | .coldReboot => Bool
  | .netbootParamsRead size => Params size
  | .netGetMac => Option (List UInt8)
  | .dhcpRequest => Option Lease
  | .dhcpRelease _ => Bool
  | .tftpRead _ _ _ max => Transfer max
  | _ => Unit

abbrev netSig : Sig := ⟨NetOp, NetOp.Res⟩

/-- How a program ends; `retrying`: it is still asking for a lease. -/
inductive Ended
  | halted
  | returned
  | retrying
  | outOfBounds
  deriving DecidableEq

abbrev Boot := Prog netSig Ended

/-- `halt` does not return. -/
def halt : Boot := .op (S := netSig) .halt fun _ => .ret .halted

/-! ### The command line -/

/-- `sizeof(cmd_line)` -/
def sizeofCmdLine : ℕ := 4096

/-- The bytes of a string. -/
def ascii (s : String) : List UInt8 := s.toUTF8.data.toList

/-- `cmd_line`, as it is initialized -/
def initCmdLine : List UInt8 :=
  ascii "console=ttyMSM0,115200n8" ++ List.replicate (sizeofCmdLine - 24) 0

/-- The value of a `char`, which may be signed. -/
def charVal (signed : Bool) (c : UInt8) : Int := if signed then c.toInt8.toInt else c.toNat

/-- `while (cmd_line[size - 1] <= ' ') if (!--size) break;`.  At size 0 the byte before the buffer is
read. -/
def stripLoop (signed : Bool) (b : List UInt8) : ℕ → Option ℕ
  | 0 => none
  | size + 1 => do
    let c ← peek b size
    if charVal signed c ≤ 32 then
      if size = 0 then some 0 else stripLoop signed b size
    else some (size + 1)

/-- `while (size--) if (cmd_line[size] < ' ') cmd_line[size] = ' ';` -/
def blankLoop (signed : Bool) : List UInt8 → ℕ → Option (List UInt8)
  | b, 0 => some b
  | b, size + 1 => (peek b size).bind fun c =>
      (if charVal signed c < 32 then poke b size 32 else some b).bind fun b =>
        blankLoop signed b size

/-- What is done with a command line of `size` bytes from a file. -/
def cleanLine (signed : Bool) (b : List UInt8) (size : ℕ) : Option (List UInt8) := do
  let size ← stripLoop signed b size
  let b ← poke b size 0
  blankLoop signed b size

/-- `args`: the buffer itself, or another string. -/
inductive Args
  | cmdLine
  | other (t : List UInt8)

/-- Without a command line from a file. -/
def useArgs (b : List UInt8) : Option Args → List UInt8
  | some (.other t) => strncpy b t (sizeofCmdLine - 1)
  | some .cmdLine => b
  | none => b

/-- `%d` -/
def decimal (n : ℕ) : List UInt8 := (Nat.toDigits 10 n).map fun d => UInt8.ofNat d.toNat

/-- `%d.%d.%d.%d` -/
def dotted (ip : IpAddr) : List UInt8 :=
  decimal ip.ipaddr1.toNat ++ 46 :: (decimal ip.ipaddr2.toNat ++ 46 ::
    (decimal ip.ipaddr3.toNat ++ 46 :: decimal ip.ipaddr4.toNat))

/-- `" tftpserverip=%d.%d.%d.%d"` -/
def serverArg (ip : IpAddr) : List UInt8 := ascii " tftpserverip=" ++ dotted ip

/-- `sizeof(def_tftp_cmdline)` -/
def sizeofDefTftpCmdline : ℕ := (ascii " tftpserverip=xxx.xxx.xxx.xxx").length + 1

/-! ### The boot -/

/-- How the payload was built: `CONFIG_KERNEL_SIZE`, `CONFIG_OPROM_MATTERS`, and whether a `char` is
signed. -/
structure Config where
  maxPayloadSize : ℕ
  opromMatters : Bool
  signed : Bool

/-- `try_dhcp`.  `mac_addr_set` is 0 throughout. -/
def tryDhcp (got : Lease → Boot) (failed : Boot) : Boot :=
  .op (S := netSig) .netGetMac fun mac : Option (List UInt8) =>
    mac.elim halt fun mac =>
      .op (S := netSig) (.uipSetethaddr mac) fun _ =>
        .op (S := netSig) .dhcpRequest fun lease : Option Lease => lease.elim failed got

/-- The loop around it, with `n` rounds left. -/
def dhcpLoop (got : Lease → Boot) : ℕ → Boot
  | 0 => .ret .retrying
  | n + 1 => tryDhcp got (dhcpLoop got n)

/-- The command line file, or `args`. -/
def loadArgs (c : Config) (ip : IpAddr) (argsfile : Option (List UInt8)) (args : Option Args)
    (b : List UInt8) : Prog netSig (Option (List UInt8)) :=
  argsfile.elim (.ret (some (useArgs b args))) fun file =>
    .op (S := netSig) (.tftpRead .cmdLine ip file (sizeofCmdLine - 1))
      fun t : Transfer (sizeofCmdLine - 1) =>
        let b := overwrite b t.data
        .ret (if t.failed then some (useArgs b args) else cleanLine c.signed b t.data.length)

/-- The server's address is added, if there is room, and the kernel is started. -/
def bootKernel (ip : IpAddr) (b : List UInt8) : Boot :=
  (strlen b).elim (.ret .outOfBounds) fun cmdLineSize =>
    if sizeofCmdLine ≤ cmdLineSize + sizeofDefTftpCmdline - 1 then .ret .returned
    else (put b cmdLineSize (serverArg ip ++ [0])).elim (.ret .outOfBounds) fun b =>
      .op (S := netSig) (.boot b) fun _ => .ret .returned

/-- The address is released, and the kernel is started. -/
def release (lease : Lease) (ip : IpAddr) (b : List UInt8) : Boot :=
  .op (S := netSig) (.dhcpRelease lease.serverIp) fun failed : Bool =>
    if failed then halt else bootKernel ip b

/-- After the lease: the boot file, and what follows. -/
def download (c : Config) (tftpIp : Option IpAddr) (bootfile argsfile : Option (List UInt8))
    (args : Option Args) (b : List UInt8) (lease : Lease) : Boot :=
  let ip := tftpIp.getD lease.nextIp
  .op (S := netSig) (.tftpRead .payload ip (bootfile.getD lease.dhcpBootfile) c.maxPayloadSize)
    fun t : Transfer c.maxPayloadSize =>
      if t.failed then .op (S := netSig) (.dhcpRelease lease.serverIp) fun _ => halt
      else do
        let b ← loadArgs c ip argsfile args b
        b.elim (.ret .outOfBounds) (release lease ip)

/-- `netboot`, with `n` rounds for the lease. -/
def netboot (c : Config) (n : ℕ) (tftpIp : Option IpAddr) (bootfile argsfile : Option (List UInt8))
    (args : Option Args) (b : List UInt8) : Boot :=
  .op (S := netSig) .netWaitForLink fun _ =>
    .op (S := netSig) .uipInit fun _ => dhcpLoop (download c tftpIp bootfile argsfile args b) n

/-- `enable_graphics`, and what follows. -/
def enableGraphics (c : Config) (next : Boot) : Boot :=
  if c.opromMatters then
    .op (S := netSig) .flagFetchOprom fun opromLoaded : Bool =>
      if opromLoaded then next
      else .op (S := netSig) .vbnvWriteOprom fun _ =>
        .op (S := netSig) .coldReboot fun failed : Bool => if failed then halt else next
  else next

/-- `netboot_entry`, with `n` rounds for the lease. -/
def netbootEntry (c : Config) (n : ℕ) : Boot :=
  .op (S := netSig) .runInitFuncs fun failed : Bool =>
    if failed then halt
    else enableGraphics c <|
      .op (S := netSig) (.netbootParamsRead sizeofCmdLine) fun p : Params sizeofCmdLine => do
        let e ← netboot c n p.tftpIp p.bootfile p.argsfile (some .cmdLine)
          (overwrite initCmdLine p.stored)
        if e = .returned then halt else return e

end Ipq4019.Netboot.Driver
