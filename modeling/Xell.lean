import Xell.Lib.Mem
import Xell.Lib.Ring
import Xell.Lib.LeadsTo
import Xell.Lib.Gives
import Xell.Fat
import Xell.Boot
import Xell.Tftp
import Xell.Rfc1350
import Xell.Httpd
import Xell.Response
import Xell.Proofs.Fat.Read
import Xell.Proofs.Fat.Chain
import Xell.Proofs.Fat.Extent
import Xell.Proofs.Fat.Path
import Xell.Proofs.Fat.Failure
import Xell.Proofs.Fat.Reported
import Xell.Proofs.Fat.Local
import Xell.Proofs.Boot
import Xell.Proofs.Tftp.Client
import Xell.Proofs.Tftp.Retries
import Xell.Proofs.Tftp.Agreement
import Xell.Proofs.Tftp.Perfect
import Xell.Proofs.Httpd.Ring
import Xell.Proofs.Httpd.Server
import Xell.Proofs.Httpd.Connection
import Xell.Proofs.Httpd.Turns
import Xell.Proofs.Httpd.Response
import Xell.Flash
import Xell.Lib.Bch
import Xell.Proofs.Flash
import Xell.Proofs.Fat.Cache
import Xell.Proofs.Fat.Endless
import Xell.Enet
import Xell.Lib.Slots
import Xell.Proofs.Enet.Descr
import Xell.Proofs.Enet.Tx
import Xell.Proofs.Enet.Rx
import Xell.Proofs.Httpd.Trace
import Xell.Proofs.Httpd.Linked
import Xell.Proofs.Httpd.Blocks
import Xell.Proofs.Httpd.Waiting
import Xell.Proofs.Httpd.Progress
import Xell.Proofs.Xenos.Layout
import Xell.Proofs.Xenos.Console
import Xell.Proofs.Xenos.Margin
import Xell.Proofs.Fat.Entry
import Xell.Proofs.Fat.Length
import Xell.Proofs.Fat.Owned
import Xell.Proofs.Tftp.Window
import Xell.Proofs.Httpd.Request
import Xell.Linebuffer
import Xell.Proofs.Httpd.Linebuffer
import Xell.Proofs.Httpd.Expansion
import Xell.Cdrom
import Xell.Iso9660
import Xell.Proofs.Cdrom.Directory
import Xell.Cache
import Xell.Proofs.Cache
import Xell.Proofs.Time
import Xell.Diskio
import Xell.Proofs.Diskio.Registry
import Xell.Proofs.Diskio.Child
import Xell.Atapi
import Xell.Proofs.Cdrom.Drive
import Xell.Proofs.Cdrom.Load
import Xell.Proofs.Cdrom.Window
import Xell.Elf
import Xell.Proofs.Elf
import Xell.Update
import Xell.Proofs.Update
import Xell.Framebuffer
import Xell.Proofs.Xenos.Scroll
import Xell.Lib.Align
import Xell.Lib.Tiling
import Xell.Malloc
import Xell.Proofs.Malloc.Alloc
import Xell.Proofs.Malloc.Heap
import Xell.Proofs.Malloc.Stats
import Xell.Proofs.Malloc.Undo
import Xell.Proofs.Vsprintf.Format
import Xell.Icmp
import Xell.Lib.Ones
import Xell.Proofs.Inet.Chksum
import Xell.Proofs.Inet.Icmp
import Xell.Proofs.Inet.Pcbs
import Xell.Proofs.Inet.Stack
import Xell.IpFrag
import Xell.Lib.Bitmap
import Xell.Proofs.Inet.Frag
import Xell.Netboot
import Xell.Proofs.Inet.Netboot
import Xell.Proofs.Inet.Relay
