import PageTables.PhysMem.HoleListBitmap
import PageTables.PhysMem.SortedListKernel
import PageTables.AArch64.DriverRefinement
import PageTables.Tlb.ListTlbRefinement
import PageTables.Mmu.Coherence
import PageTables.Mmu.MapDriver
import PageTables.Mmu.TlbRuns
import PageTables.Mmu.TlbLru
