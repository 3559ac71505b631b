import RiscyOs.Boot.HeaderAlign
import RiscyOs.Boot.Oversize
import RiscyOs.Boot.Total
import RiscyOs.Endian
import RiscyOs.Entry
import RiscyOs.Fdt.Advance
import RiscyOs.Fdt.Branch
import RiscyOs.Fdt.Inherit
import RiscyOs.Fdt.RoundTrip
import RiscyOs.Fdt.Subnode
import RiscyOs.FdtMem.Trim
import RiscyOs.MemCalls
import RiscyOs.Stdio.Log
import RiscyOs.Stdio.Terminator
import RiscyOs.StringOrder
