import AuxLoader.Boot
import AuxLoader.Caches
import AuxLoader.Chain
import AuxLoader.Clock
import AuxLoader.Cpu
import AuxLoader.Data.Bits
import AuxLoader.Data.Buffer
import AuxLoader.Data.Copy
import AuxLoader.Data.Dialogue
import AuxLoader.Data.RangeCoder
import AuxLoader.Dcache
import AuxLoader.Fdt.Alignment
import AuxLoader.Fdt.Bounds
import AuxLoader.Fdt.Document
import AuxLoader.Fdt.Inversion
import AuxLoader.Fdt.Lookup
import AuxLoader.Fdt.Sound
import AuxLoader.Fdt.Termination
import AuxLoader.Fdt.Tree
import AuxLoader.Fdt.Values
import AuxLoader.Fdt.Walk
import AuxLoader.Fit.Boot
import AuxLoader.Fit.Dtb
import AuxLoader.Fit.Handler
import AuxLoader.Fit.Inside
import AuxLoader.Fit.Kernel
import AuxLoader.Fit.OneNode
import AuxLoader.Fit.Unpack
import AuxLoader.Legacy
import AuxLoader.Loader
import AuxLoader.Lzma
import AuxLoader.LzmaDecode.Bits
import AuxLoader.LzmaDecode.Bounds
import AuxLoader.LzmaDecode.Confined
import AuxLoader.LzmaDecode.Contexts
import AuxLoader.LzmaDecode.Decoder
import AuxLoader.LzmaDecode.Encoder
import AuxLoader.LzmaDecode.File
import AuxLoader.LzmaDecode.Output
import AuxLoader.LzmaDecode.Packets
import AuxLoader.LzmaDecode.Program
import AuxLoader.LzmaDecode.RoundTrip
import AuxLoader.LzmaDecode.Rounds
import AuxLoader.LzmaDecode.Sound
import AuxLoader.LzmaInput
import AuxLoader.Machine
import AuxLoader.Mdio
import AuxLoader.Memcpy
import AuxLoader.PageTable
import AuxLoader.PhyLog
import AuxLoader.PhysPwdown
import AuxLoader.Preinits
import AuxLoader.Printf.Bounds
import AuxLoader.Printf.Console
import AuxLoader.Printf.Decimal
import AuxLoader.Printf.Format
import AuxLoader.Printf.Language
import AuxLoader.Printf.Number
import AuxLoader.Printf.Rendering
import AuxLoader.Relocate
import AuxLoader.Start
import AuxLoader.Timer
import AuxLoader.Uart
import AuxLoader.Waits
