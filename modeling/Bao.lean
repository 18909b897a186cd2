import Bao.Foundation.Run
import Bao.Foundation.Gateway
import Bao.Foundation.Chain
import Bao.Foundation.Logged
import Bao.Foundation.Ownership
import Bao.Lib.Util
import Bao.Lib.Bit
import Bao.Lib.Bitmap
import Bao.Lib.List
import Bao.Core.Config
import Bao.Core.CpuSync
import Bao.Core.Vmm
import Bao.Core.Vm
import Bao.Core.Cache
import Bao.Core.CpuMsg
import Bao.Core.Objcache
import Bao.Core.ObjcacheSystem
import Bao.Core.MsgQueue
import Bao.Core.PagePool
import Bao.Core.PagePoolClr
import Bao.Core.ClrAlloc
import Bao.Core.PageFree
import Bao.Core.Mem
import Bao.Core.MemOwner
import Bao.Core.MemMap
import Bao.Core.MemMapExact
import Bao.Core.MemVpage
import Bao.Core.MemInit
import Bao.Core.PoolAccount
import Bao.Core.MemBoot
import Bao.Core.VmMem
import Bao.Core.Reserve
import Bao.Riscv.PageTable
import Bao.Riscv.PtTree
import Bao.Riscv.IdentityMap
import Bao.Core.AsState
import Bao.Core.MemExpand
import Bao.Core.MemInflate
import Bao.Core.MemFree
import Bao.Core.VpageFresh
import Bao.Core.AsInit
import Bao.Core.VpageSection
import Bao.Core.ClrMap
import Bao.Core.MapClr
import Bao.Riscv.Vcpu
import Bao.Riscv.Sbi
import Bao.Riscv.SbiHsm
import Bao.Riscv.Plic
import Bao.Riscv.Vplic
import Bao.Riscv.VplicSystem
import Bao.Riscv.VplicFrame
import Bao.Riscv.VplicHistory
import Bao.Core.Ipc
import Bao.Core.IpcSetup
import Bao.Core.Interrupts
import Bao.Riscv.SbiVs
import Bao.Riscv.VplicLines
import Bao.Armv8.Vm
import Bao.Armv8.Psci
import Bao.Armv8.Vgic
import Bao.Armv8.VgicMsg
import Bao.Armv8.VgicLrs
import Bao.Armv8.VgicSystem
import Bao.Armv8.Smmu
import Bao.Foundation.Count
import Bao.Core.IpcShmem
import Bao.Core.MemReclr
import Bao.Foundation.Doubling
import Bao.Core.PpAligned
import Bao.Core.VmEmul
import Bao.Core.ObjcacheLimits
import Bao.Foundation.LdSt
import Bao.Riscv.SyncExceptions
import Bao.Riscv.VplicRegs
import Bao.Riscv.VplicLoad
import Bao.Core.VmConfig
import Bao.Armv8.Platform
import Bao.Armv8.VgicOps
import Bao.Armv8.VgicSpill
import Bao.Armv8.VgicScan
import Bao.Armv8.VgicPresent
import Bao.Armv8.VgicAccess
import Bao.Armv8.VgicReads
import Bao.Armv8.VgicRedist
import Bao.Armv8.VgicRefill
import Bao.Armv8.VgicEoir
import Bao.Foundation.Loop
import Bao.Foundation.Positional
import Bao.Armv8.Gicd
import Bao.Core.VmBroadcast
import Bao.Core.NextClr
import Bao.Lib.BitmapSearch
import Bao.Lib.ListRm
import Bao.Lib.Memcpy
import Bao.Lib.Printk
import Bao.Lib.PrintkFormat
import Bao.Lib.PrintkBounds
import Bao.Armv8.Spinlock
import Bao.Riscv.Exceptions
import Bao.Riscv.Spinlock
